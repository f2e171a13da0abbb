import Iamroot.ExecAgree

/-!
# The argument vector of a dynamic loader

`__ldso` first makes room in `interparg` for what comes before the program, and
then fills it. The room is counted from the options that the system has, and it
is filled under the condition that there is room. The two go together when the
system is one whose loader is run directly, and when there is no option at all;
an ELF file that is of NetBSD or of OpenBSD by its header and of Linux by the name
of its loader takes the room for the loader's path back and keeps the options.
-/

namespace Iamroot

/-! ## The vector that is wanted -/

def Loader.Direct (l : Loader) : Bool := (l.isGnuLinuxExt || l.isMusl || l.isFreebsd) && !(l.isNetbsd || l.isOpenbsd)

def optionArgs (c : Bool) (name : Str) (arg : Option Str) : List Str :=
  match arg with
  | some x => if c then [name, x] else []
  | none => []

def ldsoArgs (o : LdsoOptions) (t : LdsoStrings) : List Str :=
  optionArgs o.preload "--preload".toList t.preload ++ optionArgs o.libraryPath "--library-path".toList t.libraryPath ++
    optionArgs o.inhibitRpath "--inhibit-rpath".toList t.inhibitRpath ++
    (if o.inhibitCache then ["--inhibit-cache".toList] else []) ++ optionArgs o.argv0 "--argv0".toList (some t.argv0)

def ldsoVector (direct : Bool) (o : LdsoOptions) (t : LdsoStrings) (rest : List Str) : List Str :=
  (if direct then t.interp :: ldsoArgs o t else []) ++ t.program :: rest

/-- What `__ldso` makes of the array and returns: the vector that is wanted, in the room that was made for it
and in the array, with its length. -/
def VectorOk (l : Loader) (o : LdsoOptions) (t : LdsoStrings) (I : Slots) (argv : List Str) : Prop :=
  let r := ldsoFill o t I
  ∃ rest, I.strings = t.argv0 :: rest ∧ r.1.strings ++ argv.tail = ldsoVector l.Direct o t rest ++ argv.tail ∧
    r.1.strings.length ≤ ldsoShift o t + I.count ∧ r.2 = r.1.strings.length ∧ r.2 < 15

/-! ## The array -/

def Slots.of (xs : List Str) : Slots := xs.map some ++ List.replicate (15 - xs.length) none

@[simp] theorem Slots.of_length {xs : List Str} (h : xs.length ≤ 15) : (Slots.of xs).length = 15 := by
  simp [Slots.of]; omega

theorem Slots.of_get {xs : List Str} (h : xs.length ≤ 15) (m : Nat) :
    (Slots.of xs)[m]? = if m < 15 then some xs[m]? else none := by
  unfold Slots.of
  by_cases hm : m < xs.length
  · rw [List.getElem?_append_left (by simpa using hm), if_pos (by omega)]
    simp [List.getElem?_eq_getElem hm]
  · rw [List.getElem?_append_right (by simpa using hm), List.getElem?_replicate, List.length_map,
      List.getElem?_eq_none (by omega)]
    by_cases hlt : m < 15
    · rw [if_pos hlt, if_pos (by omega)]
    · rw [if_neg hlt, if_neg (by omega)]

theorem Slots.takeWhile_of (xs : List Str) : (Slots.of xs).takeWhile Option.isSome = xs.map some := by
  rw [Slots.of, List.takeWhile_append_of_pos (by simp)]
  cases 15 - xs.length <;> simp [List.replicate_succ]

@[simp] theorem Slots.strings_of (xs : List Str) : (Slots.of xs).strings = xs := by
  rw [Slots.strings, Slots.takeWhile_of, List.reduceOption, List.filterMap_map]
  simp

@[simp] theorem Slots.count_of (xs : List Str) : (Slots.of xs).count = xs.length := by
  rw [Slots.count, Slots.takeWhile_of, List.length_map]

theorem strings_length_ge {S : Slots} {n : Nat} (h : ∀ m < n, ∃ x, S[m]? = some (some x)) : n ≤ S.strings.length := by
  induction n generalizing S with
  | zero => exact Nat.zero_le _
  | succ n ih =>
    obtain ⟨x, hx⟩ := h 0 (Nat.succ_pos n)
    cases S with
    | nil => cases hx
    | cons y S =>
      rw [List.getElem?_cons_zero] at hx
      cases hx
      have hrec : n ≤ (Slots.strings S).length := ih fun m hm => h (m + 1) (Nat.succ_lt_succ hm)
      show n + 1 ≤ (Slots.strings (some x :: S)).length
      rw [Slots.strings, List.takeWhile_cons_of_pos rfl, List.reduceOption_cons_of_some]
      exact Nat.succ_le_succ hrec

theorem shiftUp_get (shift i : Nat) (I : Slots) (h : shift + i < I.length) (m : Nat) :
    (shiftUp shift i I)[m]? = if shift < m ∧ m ≤ shift + i then some I[m - shift]?.join else I[m]? := by
  induction i generalizing I with
  | zero =>
    rw [shiftUp, if_neg (by omega)]
  | succ i ih =>
    have hset : ∀ k, (I.set (shift + (i + 1)) I[i + 1]?.join)[k]? =
        if k = shift + (i + 1) then some I[i + 1]?.join else I[k]? := by
      intro k
      rw [List.getElem?_set]
      by_cases hk : shift + (i + 1) = k
      · rw [if_pos hk, if_pos hk.symm, if_pos h]
      · rw [if_neg hk, if_neg (Ne.symm hk)]
    rw [shiftUp, ih _ (by rw [List.length_set]; omega), hset, hset]
    by_cases hm : shift < m ∧ m ≤ shift + i
    · rw [if_pos hm, if_neg (by omega), if_pos ⟨hm.1, by omega⟩]
    · rw [if_neg hm]
      by_cases he : m = shift + (i + 1)
      · rw [if_pos he, if_pos ⟨by omega, by omega⟩, he, Nat.add_sub_cancel_left]
      · rw [if_neg he, if_neg (by omega)]

@[simp] theorem shiftUp_length (shift i : Nat) (I : Slots) : (shiftUp shift i I).length = I.length := by
  induction i generalizing I with
  | zero => rfl
  | succ i ih => rw [shiftUp, ih, List.length_set]

def pushArgs (xs : List Str) (p : Slots × Nat) : Slots × Nat := xs.foldl (fun p x => pushArg x p) p

theorem pushArgs_append (xs ys : List Str) (p : Slots × Nat) : pushArgs (xs ++ ys) p = pushArgs ys (pushArgs xs p) :=
  List.foldl_append

@[simp] theorem pushArgs_snd (xs : List Str) (p : Slots × Nat) : (pushArgs xs p).2 = p.2 + xs.length := by
  induction xs generalizing p with
  | nil => rfl
  | cons x xs ih =>
    show (pushArgs xs (pushArg x p)).2 = _
    rw [ih, List.length_cons, pushArg]
    omega

@[simp] theorem pushArgs_length (xs : List Str) (p : Slots × Nat) : (pushArgs xs p).1.length = p.1.length := by
  induction xs generalizing p with
  | nil => rfl
  | cons x xs ih =>
    show (pushArgs xs (pushArg x p)).1.length = _
    rw [ih, pushArg, List.length_set]

theorem pushArgs_get (xs : List Str) (S : Slots) (i m : Nat) (h : i + xs.length ≤ S.length) :
    (pushArgs xs (S, i)).1[m]? = if i ≤ m ∧ m < i + xs.length then some xs[m - i]? else S[m]? := by
  induction xs generalizing S i with
  | nil =>
    rw [if_neg (by simp)]
    rfl
  | cons x xs ih =>
    rw [List.length_cons] at h ⊢
    show (pushArgs xs (S.set i (some x), i + 1)).1[m]? = _
    rw [ih _ _ (by rw [List.length_set]; omega), List.getElem?_set]
    by_cases hm : i + 1 ≤ m ∧ m < i + 1 + xs.length
    · rw [if_pos hm, if_pos ⟨by omega, by omega⟩, show m - i = (m - (i + 1)) + 1 by omega, List.getElem?_cons_succ]
    · rw [if_neg hm]
      by_cases he : i = m
      · rw [if_pos he, if_pos (by omega), if_pos ⟨by omega, by omega⟩, he, Nat.sub_self, List.getElem?_cons_zero]
      · rw [if_neg he, if_neg (by omega)]

/-! ## The filling -/

def ldsoFront (o : LdsoOptions) (t : LdsoStrings) : List Str := if ldsoShift o t ≠ 0 then t.interp :: ldsoArgs o t else []

theorem pushOption_eq (c : Bool) (name : Str) (arg : Option Str) (p : Slots × Nat) :
    pushOption c name arg p = pushArgs (optionArgs c name arg) p := by
  cases arg <;> cases c <;> rfl

theorem optionArgs_length (c : Bool) (name : Str) (arg : Option Str) :
    (optionArgs c name arg).length = if c && arg.isSome then 2 else 0 := by
  cases arg <;> cases c <;> rfl

theorem ldsoShift_eq (o : LdsoOptions) (t : LdsoStrings) : ldsoShift o t = o.shift + (ldsoArgs o t).length := by
  simp only [ldsoShift, ldsoArgs, List.length_append, optionArgs_length, Option.isSome_some, Bool.and_true]
  cases o.inhibitCache <;> simp <;> omega

theorem ldsoFill_eq (o : LdsoOptions) (t : LdsoStrings) (I : Slots) :
    ldsoFill o t I =
      (((pushArgs (ldsoFront o t) (shiftUp (ldsoShift o t) I.count I, 0)).1.set (ldsoFront o t).length
        (some t.program)).set ((ldsoFront o t).length + I.count) none, (ldsoFront o t).length + I.count) := by
  have hone : ∀ (c : Bool) (x : Str) (p : Slots × Nat),
      (if c = true then pushArg x p else p) = pushArgs (if c then [x] else []) p := by
    intro c x p
    cases c <;> rfl
  have hfirst : ∀ p : Slots × Nat, pushArg t.interp p = pushArgs [t.interp] p := fun _ => rfl
  have hnone : ∀ (name : Str) (x : Option Str), optionArgs false name x = [] := by
    intro name x
    cases x <;> rfl
  unfold ldsoFill ldsoFront
  by_cases hs : ldsoShift o t = 0
  · simp [hs, pushOption_eq, hnone, pushArgs]
  · simp only [hs, ldsoArgs, ne_eq, not_false_eq_true, decide_true, Bool.true_and, if_true, pushOption_eq, hone, hfirst,
      ← pushArgs_append, pushArgs_snd, List.append_assoc, List.cons_append, List.nil_append, Nat.zero_add]

theorem ldsoArgs_length_le (o : LdsoOptions) (t : LdsoStrings) : (ldsoArgs o t).length ≤ 9 := by
  have hle : ∀ (c : Bool) (name : Str) (arg : Option Str), (optionArgs c name arg).length ≤ 2 := by
    intro c name arg
    rw [optionArgs_length]
    split <;> omega
  have hcache : (if o.inhibitCache then ["--inhibit-cache".toList] else []).length ≤ 1 := by
    cases o.inhibitCache <;> simp
  have h1 := hle o.preload "--preload".toList t.preload
  have h2 := hle o.libraryPath "--library-path".toList t.libraryPath
  have h3 := hle o.inhibitRpath "--inhibit-rpath".toList t.inhibitRpath
  have h4 := hle o.argv0 "--argv0".toList (some t.argv0)
  simp only [ldsoArgs, List.length_append]
  omega

section
variable {o : LdsoOptions} {t : LdsoStrings} {a : Str} {rest : List Str} (hrest : rest.length ≤ 2)
include hrest

/-- With as many entries as there is room for, the rest of the array moves up behind the program. -/
theorem ldsoFill_fits (h : (ldsoFront o t).length = ldsoShift o t) :
    ldsoFill o t (.of (a :: rest)) =
      (.of (ldsoFront o t ++ t.program :: rest), (ldsoFront o t ++ t.program :: rest).length) := by
  have hn : (ldsoFront o t).length ≤ 10 := by
    have := ldsoArgs_length_le o t
    unfold ldsoFront
    split
    · rw [List.length_cons]; omega
    · simp
  have hlen : (a :: rest).length ≤ 15 := by rw [List.length_cons]; omega
  have hall : (ldsoFront o t ++ t.program :: rest).length = (ldsoFront o t).length + (a :: rest).length := by simp
  have hle : (ldsoFront o t ++ t.program :: rest).length ≤ 15 := by
    rw [hall, List.length_cons]; omega
  rw [ldsoFill_eq, Slots.count_of, ← h, ← hall]
  refine Prod.ext (List.ext_getElem? fun m => ?_) rfl
  have hS : (shiftUp (ldsoFront o t).length (a :: rest).length (Slots.of (a :: rest))).length = 15 := by
    rw [shiftUp_length, Slots.of_length hlen]
  have hshift : (ldsoFront o t).length + (a :: rest).length < (Slots.of (a :: rest)).length := by
    rw [Slots.of_length hlen, List.length_cons]; omega
  rw [Slots.of_get hle]
  simp only [List.getElem?_set, List.length_set, pushArgs_length, hS]
  rw [pushArgs_get _ _ _ _ (by rw [hS]; omega), shiftUp_get _ _ _ hshift, Slots.of_get hlen, Slots.of_get hlen]
  rw [List.length_cons] at hall
  by_cases hend : (ldsoFront o t ++ t.program :: rest).length = m
  · rw [if_pos hend, if_pos (by omega), if_pos (by omega), List.getElem?_eq_none (by omega)]
  · rw [if_neg hend]
    by_cases hprog : (ldsoFront o t).length = m
    · rw [if_pos hprog, if_pos (by omega), if_pos (by omega), ← hprog, List.getElem?_append_right (le_refl _),
        Nat.sub_self, List.getElem?_cons_zero]
    · rw [if_neg hprog]
      by_cases hfront : m < (ldsoFront o t).length
      · rw [if_pos ⟨by omega, by omega⟩, if_pos (by omega), List.getElem?_append_left hfront, Nat.sub_zero]
      · rw [if_neg (by omega), List.getElem?_append_right (by omega)]
        obtain ⟨k, rfl⟩ : ∃ k, m = (ldsoFront o t).length + (k + 1) := ⟨m - (ldsoFront o t).length - 1, by omega⟩
        rw [Nat.add_sub_cancel_left, List.getElem?_cons_succ, List.getElem?_cons_succ]
        by_cases hk : k < rest.length
        · rw [if_pos ⟨by omega, by rw [List.length_cons]; omega⟩, if_pos (by omega), if_pos (by omega), Option.join_some]
        · rw [if_neg (by rw [List.length_cons]; omega), List.getElem?_eq_none (by rw [List.length_cons]; omega),
            List.getElem?_eq_none (by omega)]

/-- With one entry more, what was the second entry is lost, and the array is longer than it is to be. -/
theorem ldsoFill_spills (h0 : o.shift = 0) (hargs : ldsoArgs o t ≠ []) :
    (t.program :: rest).length < (ldsoFill o t (.of (a :: rest))).1.strings.length := by
  have hk : (ldsoArgs o t).length ≤ 9 := ldsoArgs_length_le o t
  have hpos : 0 < (ldsoArgs o t).length := List.length_pos_iff.mpr hargs
  have hsh : ldsoShift o t = (ldsoArgs o t).length := by rw [ldsoShift_eq, h0, Nat.zero_add]
  have hn : (ldsoFront o t).length = ldsoShift o t + 1 := by
    rw [ldsoFront, if_pos (by omega), List.length_cons, hsh]
  have hlen : (a :: rest).length ≤ 15 := by rw [List.length_cons]; omega
  have hS : (shiftUp (ldsoShift o t) (a :: rest).length (Slots.of (a :: rest))).length = 15 := by
    rw [shiftUp_length, Slots.of_length hlen]
  have hshift : ldsoShift o t + (a :: rest).length < (Slots.of (a :: rest)).length := by
    rw [Slots.of_length hlen, List.length_cons]; omega
  have hge : ldsoShift o t + 1 + rest.length ≤ (ldsoFill o t (.of (a :: rest))).1.strings.length := by
    apply strings_length_ge
    intro m hm
    rw [ldsoFill_eq, Slots.count_of, List.length_cons]
    simp only [List.getElem?_set, List.length_set, pushArgs_length, ← List.length_cons (a := a), hS]
    rw [pushArgs_get _ _ _ _ (by rw [hS]; omega), shiftUp_get _ _ _ hshift, Slots.of_get hlen, Slots.of_get hlen,
      List.length_cons, if_neg (by omega)]
    by_cases hprog : (ldsoFront o t).length = m
    · exact ⟨_, by rw [if_pos hprog, if_pos (by omega)]⟩
    · rw [if_neg hprog]
      by_cases hfront : m < (ldsoFront o t).length
      · exact ⟨(ldsoFront o t)[m], by rw [if_pos ⟨by omega, by omega⟩, Nat.sub_zero, List.getElem?_eq_getElem hfront]⟩
      · rw [if_neg (by omega), if_pos ⟨by omega, by omega⟩, if_pos (by omega), Option.join_some]
        have hin : m - ldsoShift o t < (a :: rest).length := by rw [List.length_cons]; omega
        exact ⟨(a :: rest)[m - ldsoShift o t], by rw [List.getElem?_eq_getElem hin]⟩
  rw [List.length_cons]
  omega

end

/-! ## The options and the system -/

section
variable {l : Loader} {version : Except Errno (Int × Int)} {o : LdsoOptions}

theorem ldsoOptions_first (h : ldsoOptions l version = .ok o) :
    ∃ o' : LdsoOptions, (if l.isGnuLinuxExt then o'.shift = 1 else o' = ⟨0, false, false, false, false, false⟩) ∧
      (fun o : LdsoOptions =>
        let o := if l.isMusl then { o with shift := 1, argv0 := true, preload := true, libraryPath := true } else o
        let o := if l.isFreebsd then { o with shift := 1 } else o
        if l.isNetbsd || l.isOpenbsd then { o with shift := 0 } else o) o' = o := by
  unfold ldsoOptions at h
  by_cases hg : l.isGnuLinuxExt = true
  · simp only [hg, if_true, bind, Except.bind] at h ⊢
    cases hc : ldLinuxHas 16 version with
    | error e => rw [hc] at h; cases h
    | ok inhibitCache =>
      cases ha : ldLinuxHas 33 version with
      | error e => simp [hc, ha] at h
      | ok argv0 =>
        cases hp : ldLinuxHas 30 version with
        | error e => simp [hc, ha, hp] at h
        | ok preload =>
          simp only [hc, ha, hp] at h
          exact ⟨_, rfl, Except.ok.inj h⟩
  · simp only [hg, if_false, Bool.false_eq_true] at h ⊢
    exact ⟨_, rfl, Except.ok.inj h⟩

/-- The systems are asked one after the other, and the last that says yes settles whether the loader is run
directly. -/
theorem ldsoOptions_shift (h : ldsoOptions l version = .ok o) : o.shift = if l.Direct then 1 else 0 := by
  obtain ⟨o', hg, rfl⟩ := ldsoOptions_first h
  unfold Loader.Direct
  cases hgnu : l.isGnuLinuxExt <;> cases l.isMusl <;> cases l.isFreebsd <;> cases l.isNetbsd <;> cases l.isOpenbsd <;>
    simp_all

theorem ldsoArgs_eq_nil (h : ldsoOptions l version = .ok o) (hd : l.Direct = false)
    (hb : (l.isNetbsd || l.isOpenbsd) = false) (t : LdsoStrings) : ldsoArgs o t = [] := by
  obtain ⟨o', hg, rfl⟩ := ldsoOptions_first h
  rw [Loader.Direct, hb, Bool.not_false, Bool.and_true, Bool.or_eq_false_iff, Bool.or_eq_false_iff] at hd
  obtain ⟨⟨hgnu, hmusl⟩, hfree⟩ := hd
  rw [if_neg (by simp [hgnu])] at hg
  simp only [hmusl, hfree, hb, hg, ldsoArgs]
  cases t.preload <;> cases t.libraryPath <;> cases t.inhibitRpath <;> rfl

/-- The vector is right exactly when no system took the room for the loader back from options that there are. -/
theorem ldsoFill_vector {t : LdsoStrings} {rest argv : List Str} (hrest : rest.length ≤ 2)
    (h : ldsoOptions l version = .ok o) : VectorOk l o t (.of (t.argv0 :: rest)) argv ↔
      ¬ ((l.isNetbsd || l.isOpenbsd) = true ∧ ldsoArgs o t ≠ []) := by
  have hs := ldsoOptions_shift h
  have hlen : (t.argv0 :: rest).length ≤ 15 := by rw [List.length_cons]; omega
  have hfits : (ldsoFront o t).length = ldsoShift o t →
      ldsoFront o t = (if l.Direct then t.interp :: ldsoArgs o t else []) → VectorOk l o t (.of (t.argv0 :: rest)) argv := by
    intro hroom hfront
    have hk := ldsoArgs_length_le o t
    have hle : (ldsoFront o t).length ≤ 10 := by
      rw [hfront]
      split
      · rw [List.length_cons]; omega
      · simp
    refine ⟨rest, Slots.strings_of _, ?_, ?_, ?_, ?_⟩
    · rw [ldsoFill_fits hrest hroom, Slots.strings_of, ldsoVector, hfront]
    · rw [ldsoFill_fits hrest hroom, Slots.strings_of, Slots.count_of, List.length_append, hroom, List.length_cons,
        List.length_cons]
    · rw [ldsoFill_fits hrest hroom, Slots.strings_of]
    · rw [ldsoFill_fits hrest hroom]
      show (ldsoFront o t ++ t.program :: rest).length < 15
      rw [List.length_append, List.length_cons]
      omega
  cases hd : l.Direct with
  | true =>
    have hb : (l.isNetbsd || l.isOpenbsd) = false := by
      rw [Loader.Direct, Bool.and_eq_true, Bool.not_eq_true'] at hd
      exact hd.2
    rw [hd, if_pos rfl] at hs
    have hshift : ldsoShift o t = (ldsoArgs o t).length + 1 := by rw [ldsoShift_eq, hs, Nat.add_comm]
    have hfront : ldsoFront o t = t.interp :: ldsoArgs o t := by rw [ldsoFront, if_pos (by omega)]
    rw [hb]
    exact iff_of_true (hfits (by rw [hfront, hshift, List.length_cons]) (by rw [hd, if_pos rfl, hfront])) (by simp)
  | false =>
    rw [hd, if_neg Bool.false_ne_true] at hs
    by_cases ha : ldsoArgs o t = []
    · have hshift : ldsoShift o t = 0 := by rw [ldsoShift_eq, hs, ha]; rfl
      have hfront : ldsoFront o t = [] := by rw [ldsoFront, if_neg (by omega)]
      refine iff_of_true (hfits (by rw [hfront, hshift]; rfl) (by rw [hd, if_neg Bool.false_ne_true, hfront])) ?_
      exact fun hne => hne.2 ha
    · have hb : (l.isNetbsd || l.isOpenbsd) = true := by
        by_contra hb
        exact ha (ldsoArgs_eq_nil h hd (Bool.not_eq_true _ ▸ hb) t)
      refine iff_of_false ?_ (not_not.mpr ⟨hb, ha⟩)
      rintro ⟨rest', hI, hv, -⟩
      rw [Slots.strings_of] at hI
      obtain rfl : rest = rest' := (List.cons.inj hI).2
      have hlt := ldsoFill_spills (a := t.argv0) hrest hs ha
      have := congrArg List.length (List.append_cancel_right hv)
      rw [ldsoVector, hd, if_neg Bool.false_ne_true, List.nil_append] at this
      omega

end

/-! ## The run -/

section
variable {w : ExecWorld} {path buf program : Str} {argv : List Str} {s s₁ s₂ : ExecState} {I : Slots} {off : Nat}

theorem Exec.bind_ok {α β : Type} {x : Exec α} {f : α → Exec β} {b : β} :
    (x >>= f) s = .ok b s₂ ↔ ∃ a s₁, x s = .ok a s₁ ∧ f a s₁ = .ok b s₂ := by
  show Exec.bind x f s = _ ↔ _
  unfold Exec.bind
  cases x s <;> simp

theorem Exec.orNone_some {α : Type} {x : Exec α} {e : Errno} {a : α} (h : Exec.orNone e x s = .ok (some a) s₂) :
    x s = .ok a s₂ := by
  unfold Exec.orNone at h
  cases hx : x s with
  | ok b s' =>
    rw [hx] at h
    cases h
    rfl
  | err e' s' =>
    rw [hx] at h
    dsimp only at h
    split at h <;> cases h
  | exit n => rw [hx] at h; cases h
  | fault => rw [hx] at h; cases h
  | unfinished => rw [hx] at h; cases h

theorem interpreterScript_slots (path : Str) {room : Nat} {first : Str} {r : Slots × Nat × Str × Option Str}
    (h : interpreterScript w buf room (Slots.of [first]) s = .ok r s₂) :
    ∃ rest : List Str, rest.length ≤ 2 ∧ r.1.set (r.2.1 - 1) (some path) = Slots.of (r.2.2.1 :: rest) := by
  obtain ⟨t, s', -, h⟩ := Exec.bind_ok.mp h
  by_cases hs : hashbangSize t < 1
  · rw [if_pos hs] at h
    cases h
  · rw [if_neg hs] at h
    cases h
    cases t.2.filter (· ≠ []) with
    | none => exact ⟨[path], by simp, rfl⟩
    | some x => exact ⟨[x, path], by simp, rfl⟩

theorem execStage_slots (hs : execStage w atFdcwd path 0 argv s = .ok (.loader buf program I off) s₁) :
    ∃ (a : Str) (rest : List Str), rest.length ≤ 2 ∧ I = Slots.of (a :: rest) := by
  unfold execStage at hs
  split at hs
  · cases hs
  · obtain ⟨buf', s', -, hs⟩ := Exec.bind_ok.mp hs
    cases argv with
    | nil => cases hs
    | cons argv0 argv =>
      obtain ⟨c, s'', -, hs⟩ := Exec.bind_ok.mp hs
      cases c with
      | false => cases hs
      | true =>
        obtain ⟨root, s3, -, hs⟩ := Exec.bind_ok.mp hs
        by_cases hroot : inchroot root = true
        · simp only [hroot] at hs
          obtain ⟨r, s4, hr, hs⟩ := Exec.bind_ok.mp hs
          cases r with
          | none =>
            cases hs
            exact ⟨argv0, [], by simp, rfl⟩
          | some r =>
            obtain ⟨rest, hrest, hI⟩ := interpreterScript_slots path (Exec.orNone_some hr)
            obtain ⟨program', s5, -, hs⟩ := Exec.bind_ok.mp hs
            cases hs
            exact ⟨_, rest, hrest, hI⟩
        · simp only [hroot] at hs
          cases hs

/-- The strings that `__ldso` has found are about the program, and start with the first entry of the array. -/
theorem ldsoFind_ok {l : Loader} {o : LdsoOptions} {t : LdsoStrings} {a : Str} {rest : List Str}
    (hl : w.interpLdsoAbi program = .ok l) (hf : ldsoFind w program (Slots.of (a :: rest)) off s = .ok (o, t) s₂) :
    (∃ version, ldsoOptions l version = .ok o) ∧ t.program = program ∧ t.argv0 = a := by
  unfold ldsoFind at hf
  obtain ⟨l', s', hl', hf⟩ := Exec.bind_ok.mp hf
  rw [hl] at hl'
  cases hl'
  obtain ⟨env, s1, -, hf⟩ := Exec.bind_ok.mp hf
  obtain ⟨o', s2, ho, hf⟩ := Exec.bind_ok.mp hf
  obtain ⟨env2, s3, -, hf⟩ := Exec.bind_ok.mp hf
  obtain ⟨preload, s4, -, hf⟩ := Exec.bind_ok.mp hf
  obtain ⟨env3, s5, -, hf⟩ := Exec.bind_ok.mp hf
  obtain ⟨libraryPath, s6, -, hf⟩ := Exec.bind_ok.mp hf
  obtain ⟨inhibit, s7, -, hf⟩ := Exec.bind_ok.mp hf
  obtain ⟨_, s8, -, hf⟩ := Exec.bind_ok.mp hf
  obtain ⟨_, s9, -, hf⟩ := Exec.bind_ok.mp hf
  obtain ⟨interp, s10, -, hf⟩ := Exec.bind_ok.mp hf
  cases hf
  refine ⟨⟨w.ldLinuxVersion env l.ptInterp, ?_⟩, rfl, rfl⟩
  cases hv : ldsoOptions l (w.ldLinuxVersion env l.ptInterp) with
  | error e =>
    rw [hv] at ho
    cases ho
  | ok o'' =>
    rw [hv] at ho
    cases ho
    rfl

theorem ldsoFind_run {l : Loader} {o : LdsoOptions} {preload libraryPath interp a : Str} {inhibit : Option Str}
    {s₃ : ExecState} {inhibitRpath : Str} (hl : w.interpLdsoAbi program = .ok l)
    (ho : ldsoOptions l (w.ldLinuxVersion s.env l.ptInterp) = .ok o)
    (hp : w.ldPreload s.env l program (execBufsiz - off) = .ok preload)
    (hlp : w.ldLibraryPath s.env program (execBufsiz - (off + extent preload)) = .ok libraryPath)
    (hi : getenv s.env "IAMROOT_INHIBIT_RPATH".toList = some inhibit)
    (hir : inhibitRpath = if o.inhibitRpath then
      strncpy (inhibit.getD []) (execBufsiz - (off + extent preload + extent libraryPath)) else [])
    (h1 : Exec.unsetenv "LD_PRELOAD".toList s = .ok () s₁) (h2 : Exec.unsetenv "LD_LIBRARY_PATH".toList s₁ = .ok () s₂)
    (hr : resolveAt w atFdcwd l.ptInterp
      (execBufsiz - (off + extent preload + extent libraryPath + extent inhibitRpath)) 0 s₂ = .ok interp s₃)
    (hI : I[0]?.join = some a) : ldsoFind w program I off s =
      .ok (o, ⟨interp, nonempty preload, nonempty libraryPath, nonempty inhibitRpath, a, program⟩) s₃ := by
  have hof : ∀ {α : Type} {x : Except Errno α} {a : α} {s : ExecState}, x = .ok a → Exec.ofExcept x s = .ok a s := by
    intro α x a s hx
    rw [hx]
    rfl
  have henv : ∀ {s : ExecState}, Exec.environ s = .ok s.env s := rfl
  rw [ldsoFind, Exec.bind_of_ok (hof hl), Exec.bind_of_ok henv, Exec.bind_of_ok (hof ho), Exec.bind_of_ok henv,
    Exec.bind_of_ok (hof hp)]
  dsimp only
  rw [Exec.bind_of_ok henv, Exec.bind_of_ok (hof hlp), Exec.bind_of_ok (getenv_of_some hi)]
  rw [← hir, Exec.bind_of_ok h1, Exec.bind_of_ok h2, Exec.bind_of_ok hr, hI]
  rfl

/-- The vector of a program that has come to its loader. -/
theorem execve_vector {l : Loader} {o : LdsoOptions} {t : LdsoStrings}
    (hs : execStage w atFdcwd path 0 argv s = .ok (.loader buf program I off) s₁)
    (hl : w.interpLdsoAbi program = .ok l) (hf : ldsoFind w program I off s₁ = .ok (o, t) s₂) :
    t.program = program ∧
      (VectorOk l o t I argv ↔ ¬ ((l.isNetbsd || l.isOpenbsd) = true ∧ ldsoArgs o t ≠ [])) := by
  obtain ⟨a, rest, hrest, rfl⟩ := execStage_slots hs
  obtain ⟨⟨version, ho⟩, hp, rfl⟩ := ldsoFind_ok hl hf
  exact ⟨hp, ldsoFill_vector hrest ho⟩

end

def glibcLoader : Loader where
  ident := [0x7f, 0x45, 0x4c, 0x46, 2, 1, 1, 0, 0, 0, 0, 0, 0, 0, 0, 0]
  machine := 62
  ptInterp := "/lib64/ld-linux-x86-64.so.2".toList
  ldso := "linux-x86-64".toList
  abi := 2

def glibcFs : FileSystem := .ofList
  [([['r']], .dir), (["bin".toList, ['r']], .dir), (["sh".toList, "bin".toList, ['r']], .file),
    (["lib64".toList, ['r']], .dir), (["ld-linux-x86-64.so.2".toList, "lib64".toList, ['r']], .file)] (by decide)

def glibcWorld : ExecWorld :=
  { namedWorld with
    host := glibcFs.host [] fun _ => none
    file := fun _ => .ok ⟨0o755, 4, .ok elfMagic⟩
    hasInterp := fun _ => .ok true
    interpLdsoAbi := fun _ => .ok glibcLoader
    ldPreload := fun _ _ _ _ => .ok "/usr/lib/iamroot/libiamroot.so".toList
    ldLibraryPath := fun _ _ _ => .ok "/r/lib64".toList }

set_option maxRecDepth 20000 in
theorem glibc_stage : execStage glibcWorld atFdcwd "/bin/sh".toList 0 ["sh".toList, "-l".toList] namedState =
    .ok (.loader "/r/bin/sh".toList "/r/bin/sh".toList (Slots.empty.set 0 (some "sh".toList)) 10)
      { namedState with errno := some .ENOEXEC } := by
  have hpath : resolveAt glibcWorld atFdcwd "/bin/sh".toList execBufsiz 0 namedState = .ok "/r/bin/sh".toList namedState :=
    named_resolves named_root ⟨by decide, by decide, by decide⟩ (by decide) (by decide) (by decide) (by decide) (by decide)
      (by decide)
  exact execStage_binary (by decide) hpath rfl named_root (by decide) rfl

set_option maxRecDepth 20000 in
theorem glibc_finds : ∃ o t s, ldsoFind glibcWorld "/r/bin/sh".toList (Slots.empty.set 0 (some "sh".toList)) 10
    { namedState with errno := some .ENOEXEC } = .ok (o, t) s := by
  have hinhibit : getenv namedState.env "IAMROOT_INHIBIT_RPATH".toList = some none := by decide
  have hinterp : ∀ {s : ExecState}, getenv s.env "IAMROOT_ROOT".toList = some (some "/r".toList) →
      resolveAt glibcWorld atFdcwd glibcLoader.ptInterp 8142 0 s = .ok "/r/lib64/ld-linux-x86-64.so.2".toList s := by
    intro s hroot
    exact named_resolves hroot ⟨by decide, by decide, by decide⟩ (by decide) (by decide) (by decide) (by decide)
      (by decide) (by decide)
  exact ⟨_, _, _, ldsoFind_run (l := glibcLoader) rfl rfl rfl rfl hinhibit rfl rfl rfl (hinterp (by decide)) rfl⟩

/-- `sh -l` in the chroot, run by the loader of the GNU C library. -/
theorem execve_vector_glibc : ∃ I o t, VectorOk glibcLoader o t I ["sh".toList, "-l".toList] := by
  obtain ⟨o, t, s, hf⟩ := glibc_finds
  have hsystem : (glibcLoader.isNetbsd || glibcLoader.isOpenbsd) = false := by decide
  have hv := (execve_vector glibc_stage (l := glibcLoader) rfl hf).2
  exact ⟨_, o, t, hv.mpr fun h => by rw [hsystem] at h; cases h.1⟩

def netbsdLoader : Loader :=
  { glibcLoader with ident := [0x7f, 0x45, 0x4c, 0x46, 2, 1, 1, 2, 0, 0, 0, 0, 0, 0, 0, 0] }

def scriptStrings : LdsoStrings where
  interp := "/r/lib64/ld-linux-x86-64.so.2".toList
  preload := some "/usr/lib/iamroot/libiamroot.so".toList
  libraryPath := some "/r/lib64".toList
  inhibitRpath := none
  argv0 := "/bin/sh".toList
  program := "/r/bin/sh".toList

/-- The script `/s` is not in the vector that runs it. -/
theorem execve_vector_netbsd :
    ∃ o, ldsoOptions netbsdLoader (.error .ENOTSUP) = .ok o ∧
      (ldsoFill o scriptStrings (.of ["/bin/sh".toList, "/s".toList])).1.strings =
        ["/r/lib64/ld-linux-x86-64.so.2".toList, "--preload".toList, "/usr/lib/iamroot/libiamroot.so".toList,
          "--library-path".toList, "/r/lib64".toList, "--inhibit-cache".toList, "--argv0".toList, "/bin/sh".toList,
          "/r/bin/sh".toList] ∧
      ¬ VectorOk netbsdLoader o scriptStrings (.of ["/bin/sh".toList, "/s".toList]) ["s".toList] := by
  refine ⟨⟨0, true, true, true, true, true⟩, rfl, by decide, ?_⟩
  have hv : VectorOk netbsdLoader ⟨0, true, true, true, true, true⟩ scriptStrings
      (.of (scriptStrings.argv0 :: ["/s".toList])) ["s".toList] ↔ _ :=
    ldsoFill_vector (by decide) (show ldsoOptions netbsdLoader (.error .ENOTSUP) = .ok ⟨0, true, true, true, true, true⟩ from rfl)
  rw [show "/bin/sh".toList = scriptStrings.argv0 from rfl, hv, not_not]
  exact ⟨by decide, by decide⟩

end Iamroot
