import Iamroot.EnvReset
import Iamroot.ExecVector

/-!
# What an exec leaves of the environment

The value of a variable is in the first string that binds it. Every part of an
exec is sound with the environment, and writes the variables of the loader and
of `exec.sh` alone: what the other ones are bound to is the same when it
succeeds, and when it fails.
-/

namespace Iamroot

/-! ## The value of a variable -/

/-- What the first string that binds `n` has after the equals sign. -/
def valueOf (n : Str) (l : List Str) : Option Str := (l.find? fun s => nameOf s == some n).map (·.drop (n.length + 1))

def Env.value (e : Env) (n : Str) : Option Str := valueOf n (e.entries.map e.mem)

section
variable {e e' : Env} {n m : Str}

theorem Env.value_eq (e : Env) (n : Str) :
    e.value n = ((e.entries.filter (Names e.mem n)).head?.map e.mem).map (·.drop (n.length + 1)) := by
  rw [Env.value, valueOf, List.find?_map, List.head?_filter]
  rfl

theorem value_setenvNew (h : e.Ok) (hn : IsName n) {value : Str} {r : Int}
    (hs : setenvNew e n value (nameLen n) = some (e', r)) :
    e'.Ok ∧ ∀ m, e'.value m = if m = n then some value else e.value m := by
  obtain ⟨e₁, r₁, hs₁, hok, hmem, hent⟩ := setenvNew_eq h hn value
  cases hs.symm.trans hs₁
  refine ⟨hok, fun m => ?_⟩
  have hp : Names e'.mem n (.owned e.next) = true := by
    rw [Names, hmem, Function.update_self, beq_iff_eq]
    exact nameOf_eq_some.mpr ⟨hn.1, hn.2, value, rfl⟩
  rw [Env.value_eq, hent, filter_put e'.mem hp m]
  by_cases hm : m = n
  · rw [if_pos hm, if_pos hm, hm, List.head?_cons, Option.map_some, hmem, Function.update_self, Option.map_some]
    simp
  · rw [if_neg hm, if_neg hm, Env.value_eq]
    have hold : ∀ q ∈ e.entries, e'.mem q = e.mem q := by
      intro q hq
      rw [hmem, Function.update_of_ne]
      intro he
      exact h.next_not_live (he ▸ h.entries_live _ (he ▸ hq))
    have hfilter : e.entries.filter (Names e'.mem m) = e.entries.filter (Names e.mem m) :=
      List.filter_congr fun q hq => by rw [Names, Names, hold q hq]
    rw [hfilter]
    cases hh : (e.entries.filter (Names e.mem m)).head? with
    | none => rfl
    | some q =>
      have hq : q ∈ e.entries := (List.mem_filter.mp (List.mem_of_mem_head? hh)).1
      rw [Option.map_some, Option.map_some, Option.map_some, hold q hq]
      rfl

theorem value_unsetenv (h : e.Ok) {r : Int} (hs : unsetenv e n = some (e', r)) :
    e'.Ok ∧ ∀ m, m ≠ n → e'.value m = e.value m := by
  obtain ⟨e₁, r₁, hs₁, hok, hmem, -, hent⟩ := unsetenv_eq h n
  cases hs.symm.trans hs₁
  refine ⟨hok, fun m hm => ?_⟩
  rw [Env.value_eq, Env.value_eq, hmem, hent]
  by_cases hn : IsName n
  · rw [if_pos hn, filter_unset, if_neg hm]
  · rw [if_neg hn]

theorem value_setenv (h : e.Ok) (hn : IsName n) {value : Str} {r : Int} (hs : setenv e n value true = some (e', r)) :
    e'.Ok ∧ ∀ m, e'.value m = if m = n then some value else e.value m := by
  unfold setenv at hs
  dsimp only at hs
  rw [if_neg (isName_iff.mp hn), if_pos rfl] at hs
  exact value_setenvNew h hn hs

end

/-! ## Calls of the program on its environment -/

def EnvCall.Clears (c : EnvCall) (n : Str) : Prop :=
  match c with
  | .setenv _ _ _ | .putenv _ => False
  | .unsetenv name => name = n
  | .clearenv => True

section
variable {e e' : Env} {n : Str}

end

/-! ## The variables that are written -/

/-- The environment is sound as before, and the variables but `N` have their values. -/
def KeptBut (N : List Str) (e e' : Env) : Prop := e.Ok → e'.Ok ∧ ∀ n, n ∉ N → e'.value n = e.value n

theorem KeptBut.refl (N : List Str) (e : Env) : KeptBut N e e := fun h => ⟨h, fun _ _ => rfl⟩

theorem KeptBut.trans {N : List Str} {a b c : Env} (h : KeptBut N a b) (h' : KeptBut N b c) : KeptBut N a c := by
  intro ha
  obtain ⟨hb, hv⟩ := h ha
  obtain ⟨hc, hv'⟩ := h' hb
  exact ⟨hc, fun n hn => (hv' n hn).trans (hv n hn)⟩

theorem Exec.update_env {f : Env → Option (Env × Int)} {s s' : ExecState}
    (h : Exec.update f s = .ok () s' ∨ ∃ e, Exec.update f s = .err e s') : ∃ r, f s.env = some (s'.env, r) := by
  unfold Exec.update at h
  cases hv : f s.env with
  | none =>
    rw [hv] at h
    obtain h | ⟨e, h⟩ := h <;> cases h
  | some p =>
    rw [hv] at h
    refine ⟨p.2, ?_⟩
    obtain h | ⟨e, h⟩ := h
    · dsimp only at h
      split at h
      · cases h
      · cases h
        rfl
    · dsimp only at h
      split at h
      · cases h
        rfl
      · cases h

theorem Exec.bind_err {α β : Type} {x : Exec α} {f : α → Exec β} {s s' : ExecState} {e : Option Errno}
    (h : (x >>= f) s = .err e s') : x s = .err e s' ∨ ∃ a s₁, x s = .ok a s₁ ∧ f a s₁ = .err e s' := by
  change Exec.bind x f s = _ at h
  unfold Exec.bind at h
  cases h₁ : x s with
  | ok a s₁ =>
    rw [h₁] at h
    exact .inr ⟨a, s₁, rfl, h⟩
  | err e₁ s₁ =>
    rw [h₁] at h
    cases h
    exact .inl rfl
  | exit n => rw [h₁] at h; cases h
  | fault => rw [h₁] at h; cases h
  | unfinished => rw [h₁] at h; cases h

/-- From the state `s`, the computation writes no variable but `N`, whether it succeeds or fails. -/
structure Exec.WritesAt {α : Type} (N : List Str) (x : Exec α) (s : ExecState) : Prop where
  ok : ∀ {a s'}, x s = .ok a s' → KeptBut N s.env s'.env
  err : ∀ {e s'}, x s = .err e s' → KeptBut N s.env s'.env

namespace Exec.WritesAt

variable {α β : Type} {N : List Str} {x : Exec α} {s : ExecState}

theorem bind {f : α → Exec β} (hx : Exec.WritesAt N x s) (hf : ∀ a s₁, x s = .ok a s₁ → Exec.WritesAt N (f a) s₁) :
    Exec.WritesAt N (x >>= f) s where
  ok h := by
    obtain ⟨a, s₁, h₁, h⟩ := Exec.bind_ok.mp h
    exact (hx.ok h₁).trans ((hf a s₁ h₁).ok h)
  err h := by
    obtain h | ⟨a, s₁, h₁, h⟩ := Exec.bind_err h
    · exact hx.err h
    · exact (hx.ok h₁).trans ((hf a s₁ h₁).err h)

theorem orNone (e : Errno) (hx : Exec.WritesAt N x s) : Exec.WritesAt N (Exec.orNone e x) s where
  ok {a s'} h := by
    unfold Exec.orNone at h
    cases h₁ : x s with
    | ok a s₁ =>
      rw [h₁] at h
      cases h
      exact hx.ok h₁
    | err e₁ s₁ =>
      rw [h₁] at h
      dsimp only at h
      split at h
      · cases h
        exact hx.err h₁
      · cases h
    | exit n => rw [h₁] at h; cases h
    | fault => rw [h₁] at h; cases h
    | unfinished => rw [h₁] at h; cases h
  err {e s'} h := by
    unfold Exec.orNone at h
    cases h₁ : x s with
    | ok a s₁ => rw [h₁] at h; cases h
    | err e₁ s₁ =>
      rw [h₁] at h
      dsimp only at h
      split at h
      · cases h
      · cases h
        exact hx.err h₁
    | exit n => rw [h₁] at h; cases h
    | fault => rw [h₁] at h; cases h
    | unfinished => rw [h₁] at h; cases h

theorem mono {M : List Str} (hN : N ⊆ M) (hx : Exec.WritesAt N x s) : Exec.WritesAt M x s where
  ok h he := (hx.ok h he).imp_right fun hv n hn => hv n fun hm => hn (hN hm)
  err h he := (hx.err h he).imp_right fun hv n hn => hv n fun hm => hn (hN hm)

end Exec.WritesAt

structure Exec.Writes {α : Type} (N : List Str) (x : Exec α) : Prop where
  ok : ∀ {s a s'}, x s = .ok a s' → KeptBut N s.env s'.env
  err : ∀ {s e s'}, x s = .err e s' → KeptBut N s.env s'.env

namespace Exec.Writes

variable {α β : Type} {N : List Str} {x : Exec α}

theorem from_state (h : Exec.Writes N x) (s : ExecState) : Exec.WritesAt N x s := ⟨h.ok, h.err⟩

theorem of_at (h : ∀ s, Exec.WritesAt N x s) : Exec.Writes N x := ⟨(h _).ok, (h _).err⟩

theorem of_env (h : ∀ s, (∀ {a s'}, x s = .ok a s' → s'.env = s.env) ∧ ∀ {e s'}, x s = .err e s' → s'.env = s.env) :
    Exec.Writes N x where
  ok hx := (h _).1 hx ▸ KeptBut.refl N _
  err hx := (h _).2 hx ▸ KeptBut.refl N _

theorem pure (a : α) : Exec.Writes N (Pure.pure a : Exec α) where
  ok h := by
    cases h
    exact KeptBut.refl N _
  err h := by cases h

theorem bind {f : α → Exec β} (hx : Exec.Writes N x) (hf : ∀ a, Exec.Writes N (f a)) : Exec.Writes N (x >>= f) :=
  of_at fun s => (hx.from_state s).bind fun a s₁ _ => (hf a).from_state s₁

theorem fail (e : Errno) : Exec.Writes N (Exec.fail e : Exec α) where
  ok h := by cases h
  err h := by
    cases h
    exact KeptBut.refl N _

theorem failAsIs : Exec.Writes N (Exec.failAsIs : Exec α) where
  ok h := by cases h
  err h := by
    cases h
    exact KeptBut.refl N _

theorem fault : Exec.Writes N (Exec.fault : Exec α) where
  ok h := by cases h
  err h := by cases h

theorem exit (n : Nat) : Exec.Writes N (Exec.exit n : Exec α) where
  ok h := by cases h
  err h := by cases h

theorem environ : Exec.Writes N Exec.environ where
  ok h := by
    cases h
    exact KeptBut.refl N _
  err h := by cases h

theorem ofExcept (r : Except Errno α) : Exec.Writes N (Exec.ofExcept r) := by
  cases r with
  | ok a => exact pure a
  | error e => exact fail e

theorem getenv (n : Str) : Exec.Writes N (Exec.getenv n) := by
  refine of_env fun s => ⟨fun h => ?_, fun h => ?_⟩
  · unfold Exec.getenv at h
    cases hv : Iamroot.getenv s.env n with
    | none => rw [hv] at h; cases h
    | some v => rw [hv] at h; cases h; rfl
  · unfold Exec.getenv at h
    cases hv : Iamroot.getenv s.env n <;> rw [hv] at h <;> cases h

theorem orNone (e : Errno) (hx : Exec.Writes N x) : Exec.Writes N (Exec.orNone e x) :=
  of_at fun s => (hx.from_state s).orNone e

theorem orElse {f : Option Errno → Exec α} (hx : Exec.Writes N x) (hf : ∀ e, Exec.Writes N (f e)) :
    Exec.Writes N (Exec.orElse x f) where
  ok {s a s'} h := by
    unfold Exec.orElse at h
    cases h₁ : x s with
    | ok a s₁ =>
      rw [h₁] at h
      cases h
      exact hx.ok h₁
    | err e₁ s₁ =>
      rw [h₁] at h
      exact (hx.err h₁).trans ((hf e₁).ok h)
    | exit n => rw [h₁] at h; cases h
    | fault => rw [h₁] at h; cases h
    | unfinished => rw [h₁] at h; cases h
  err {s e s'} h := by
    unfold Exec.orElse at h
    cases h₁ : x s with
    | ok a s₁ => rw [h₁] at h; cases h
    | err e₁ s₁ =>
      rw [h₁] at h
      exact (hx.err h₁).trans ((hf e₁).err h)
    | exit n => rw [h₁] at h; cases h
    | fault => rw [h₁] at h; cases h
    | unfinished => rw [h₁] at h; cases h

theorem update {f : Env → Option (Env × Int)} (hf : ∀ e e' r, f e = some (e', r) → KeptBut N e e') :
    Exec.Writes N (Exec.update f) where
  ok h := by
    obtain ⟨r, hr⟩ := Exec.update_env (.inl h)
    exact hf _ _ _ hr
  err h := by
    obtain ⟨r, hr⟩ := Exec.update_env (.inr ⟨_, h⟩)
    exact hf _ _ _ hr

theorem setenv {n : Str} (hn : IsName n) (hm : n ∈ N) (value : Str) : Exec.Writes N (Exec.setenv n value) := by
  refine update fun e e' r hs he => ?_
  obtain ⟨hok, hv⟩ := value_setenv he hn hs
  refine ⟨hok, fun m hm' => ?_⟩
  rw [hv, if_neg]
  rintro rfl
  exact hm' hm

theorem unsetenv {n : Str} (hm : n ∈ N) : Exec.Writes N (Exec.unsetenv n) := by
  refine update fun e e' r hs he => ?_
  obtain ⟨hok, hv⟩ := value_unsetenv he hs
  refine ⟨hok, fun m hm' => hv m ?_⟩
  rintro rfl
  exact hm' hm

theorem mono {M : List Str} (hN : N ⊆ M) (hx : Exec.Writes N x) : Exec.Writes M x := of_at fun s => (hx.from_state s).mono hN

end Exec.Writes

def loaderNames : List Str := ["LD_PRELOAD".toList, "LD_LIBRARY_PATH".toList]

def execShNames : List Str :=
  loaderNames ++ ["IAMROOT_VERSION".toList, "_argv0".toList, "_preload".toList, "_library_path".toList]

def execNames : List Str := "argv0".toList :: execShNames

section
variable (w : ExecWorld) {N : List Str}

end

end Iamroot
