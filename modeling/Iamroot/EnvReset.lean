import Iamroot.EnvInv

/-!
# The environment that is handed to an exec

`_resetenv` releases the strings of the old variables but leaves them in the
array, and then puts the strings of `envp` one by one. So an old variable that
`envp` does not define survives, a released string stays or is read, and a
string that `envp` shares with the table is released as it is put.
-/

namespace Iamroot

/-! ## What the environment should be -/

section
variable (e : Env) (envp : List Ptr)

/-- The bindings of `n` after the exec: the one that `envp` finds first, or the
old ones when the variable is `IAMROOT…` and `envp` has none. -/
def wanted (n : Str) : List Str :=
  match envp.filter (Names e.mem n) with
  | p :: _ => [e.mem p]
  | [] => if iamroot <+: n then (e.entries.filter (Names e.mem n)).map e.mem else []

structure Rebound (e' : Env) : Prop where
  live : ∀ p ∈ e'.entries, p ∉ e'.freed
  named : ∀ p ∈ e'.entries, ∃ n, nameOf (e'.mem p) = some n
  bound : ∀ n, (e'.entries.filter (Names e'.mem n)).map e'.mem = wanted e envp n

/-- The strings that bind `n`, and those that are the bare name. -/
def About (mem : Ptr → Str) (n : Str) (p : Ptr) : Bool := Names mem n p || mem p == n

structure Rebinds : Prop where
  kept : ∀ k, .owned k ∈ e.entries → iamroot <+: e.mem (.owned k)
  callers : ∀ p ∈ envp, ∃ m, p = .caller m
  named : ∀ p ∈ e.entries, ∃ n, nameOf (e.mem p) = some n
  defined : ∀ n, envp.filter (Names e.mem n) ≠ [] →
    (envp.filter (About e.mem n)).getLast?.map e.mem = (envp.filter (Names e.mem n)).head?.map e.mem ∧
      ((∃ p ∈ envp, e.mem p = n) ∨ (e.entries.filter (Names e.mem n)).length ≤ 1)
  others : ∀ n, envp.filter (Names e.mem n) = [] → e.entries.filter (Names e.mem n) ≠ [] →
    ((∃ p ∈ envp, e.mem p = n) ↔ ¬ iamroot <+: n)

end

/-! ## The bindings of one variable -/

theorem names_isName {mem : Ptr → Str} {n : Str} {p : Ptr} (h : Names mem n p = true) : IsName n := by
  obtain ⟨h1, h2, -⟩ := nameOf_eq_some.mp (beq_iff_eq.mp h)
  exact ⟨h1, h2⟩

theorem names_unique {mem : Ptr → Str} {n m : Str} {p : Ptr} (h : Names mem n p = true) (h' : Names mem m p = true) :
    n = m := Option.some.inj ((beq_iff_eq.mp h).symm.trans (beq_iff_eq.mp h'))

theorem names_not_bare {mem : Ptr → Str} {n m : Str} {p : Ptr} (h : Names mem n p = true) (hm : IsName m) : mem p ≠ m := by
  obtain ⟨-, -, v, hv⟩ := nameOf_eq_some.mp (beq_iff_eq.mp h)
  intro he
  rw [← he, hv] at hm
  exact hm.2 (List.mem_append_right n List.mem_cons_self)

section
variable (mem : Ptr → Str)

theorem filter_put {n : Str} {p : Ptr} (hp : Names mem n p = true) (m : Str) : ∀ L : List Ptr,
    (put mem n p L).filter (Names mem m) =
      if m = n then p :: (L.filter (Names mem m)).tail else L.filter (Names mem m)
  | [] => by
    unfold put
    by_cases h : m = n
    · rw [h, List.filter_cons_of_pos hp, if_pos rfl]; rfl
    · rw [List.filter_cons_of_neg (fun hh => h (names_unique hh hp)), if_neg h]
  | q :: L => by
    have ih := filter_put hp m L
    unfold put
    by_cases hq : Names mem n q = true
    · rw [if_pos hq]
      by_cases h : m = n
      · rw [if_pos h, h, List.filter_cons_of_pos hp, List.filter_cons_of_pos hq]; rfl
      · rw [if_neg h, List.filter_cons_of_neg (fun hh => h (names_unique hh hp)),
          List.filter_cons_of_neg (fun hh => h (names_unique hh hq))]
    · rw [if_neg hq]
      by_cases h : m = n
      · rw [if_pos h] at ih ⊢
        rw [h] at ih ⊢
        rw [List.filter_cons_of_neg hq, List.filter_cons_of_neg hq, ih]
      · rw [if_neg h] at ih ⊢
        rw [List.filter_cons, List.filter_cons, ih]

theorem filter_unset (n m : Str) (L : List Ptr) :
    (unset mem n L).filter (Names mem m) = if m = n then [] else L.filter (Names mem m) := by
  unfold unset
  rw [List.filter_filter]
  by_cases h : m = n
  · rw [if_pos h, List.filter_eq_nil_iff]
    intro q _
    rw [h]
    cases Names mem n q <;> decide
  · rw [if_neg h]
    refine List.filter_congr fun q _ => ?_
    cases hm : Names mem m q with
    | false => rfl
    | true =>
      have hn : Names mem n q = false := Bool.eq_false_iff.mpr fun hn => h (names_unique hm hn)
      rw [hn]; rfl

def stepName (m : Str) (l : List Ptr) (p : Ptr) : List Ptr :=
  if Names mem m p then p :: l.tail else if mem p = m then [] else l

theorem filter_putString {m : Str} (hm : IsName m) (p : Ptr) (L : List Ptr) :
    (putString mem p L).filter (Names mem m) = stepName mem m (L.filter (Names mem m)) p := by
  unfold putString stepName
  cases hs : nameOf (mem p) with
  | some n =>
    have hp : Names mem n p = true := beq_iff_eq.mpr hs
    simp only
    rw [filter_put mem hp m L, if_neg (names_not_bare hp hm)]
    by_cases h : m = n
    · rw [if_pos h, h, if_pos hp]
    · rw [if_neg h, if_neg fun hh => h (names_unique hh hp)]
  | none =>
    have hp : ¬ Names mem m p = true := fun h => by
      rw [beq_iff_eq.mp h] at hs; cases hs
    simp only
    rw [if_neg hp]
    by_cases h : mem p = m
    · rw [if_pos h, h, if_pos hm, filter_unset, if_pos rfl]
    · rw [if_neg h]
      split
      · rw [filter_unset, if_neg fun hh => h hh.symm]
      · rfl

theorem filter_foldl {m : Str} (hm : IsName m) : ∀ (envp L : List Ptr),
    (envp.foldl (fun L p => putString mem p L) L).filter (Names mem m) =
      envp.foldl (stepName mem m) (L.filter (Names mem m))
  | [], _ => rfl
  | p :: envp, L => by
    rw [List.foldl_cons, List.foldl_cons, filter_foldl hm envp, filter_putString mem hm]

theorem tail_foldl {m : Str} (hm : IsName m) (l : List Ptr) (envp : List Ptr) :
    (envp.foldl (stepName mem m) l).tail = if ∃ p ∈ envp, mem p = m then [] else l.tail := by
  induction envp using List.reverseRecOn with
  | nil => simp
  | append_singleton envp p ih =>
    rw [List.foldl_append, List.foldl_cons, List.foldl_nil, stepName]
    by_cases hp : Names mem m p = true
    · rw [if_pos hp, List.tail_cons, ih]
      have hne := names_not_bare hp hm
      simp [or_and_right, exists_or, hne]
    · rw [if_neg hp]
      by_cases h : mem p = m
      · rw [if_pos h, if_pos ⟨p, by simp, h⟩]; rfl
      · rw [if_neg h, ih]
        simp [or_and_right, exists_or, h]

/-- The last string about `m` decides: a binding replaces the first of those
that were left, a bare name leaves none. -/
theorem foldl_eq {m : Str} (hm : IsName m) (l : List Ptr) (envp : List Ptr) :
    envp.foldl (stepName mem m) l = match (envp.filter (About mem m)).getLast? with
      | none => l
      | some p => if Names mem m p then p :: (if ∃ p ∈ envp, mem p = m then [] else l.tail) else [] := by
  induction envp using List.reverseRecOn with
  | nil => rfl
  | append_singleton envp p ih =>
    rw [List.foldl_append, List.foldl_cons, List.foldl_nil, stepName, List.filter_append]
    by_cases hp : Names mem m p = true
    · have hab : About mem m p = true := by unfold About; rw [hp]; rfl
      have hne := names_not_bare hp hm
      rw [if_pos hp, List.filter_cons_of_pos hab, List.filter_nil, List.getLast?_concat]
      simp only [hp, if_true, tail_foldl mem hm]
      simp [or_and_right, exists_or, hne]
    · rw [if_neg hp]
      by_cases h : mem p = m
      · have hab : About mem m p = true := by unfold About; simp [h]
        rw [if_pos h, List.filter_cons_of_pos hab, List.filter_nil, List.getLast?_concat]
        simp [hp]
      · have hab : ¬ About mem m p = true := by unfold About; simp [hp, h]
        rw [if_neg h, List.filter_cons_of_neg hab, List.filter_nil, List.append_nil, ih]
        simp [or_and_right, exists_or, h]

theorem mem_unset {n : Str} {L : List Ptr} {q : Ptr} (h : q ∈ unset mem n L) : q ∈ L := (List.mem_filter.mp h).1

theorem mem_putString {p q : Ptr} {L : List Ptr} (h : q ∈ putString mem p L) :
    q ∈ L ∨ q = p ∧ ∃ n, nameOf (mem p) = some n := by
  unfold putString at h
  cases hs : nameOf (mem p) with
  | some n =>
    rw [hs] at h
    exact (mem_put mem n p h).symm.imp_right fun hq => ⟨hq, n, rfl⟩
  | none =>
    rw [hs] at h
    simp only at h
    split at h
    · exact Or.inl (mem_unset mem h)
    · exact Or.inl h

theorem unnamed_stays {p q : Ptr} {L : List Ptr} (hq : nameOf (mem q) = none) (h : q ∈ L) : q ∈ putString mem p L := by
  have hno : ∀ n, ¬ Names mem n q = true := fun n hn => by
    rw [beq_iff_eq.mp hn] at hq; cases hq
  unfold putString
  cases nameOf (mem p) with
  | some n =>
    have hc := count_put mem n p q L
    have hfind : ¬ L.find? (Names mem n) = some q := fun hf => hno n (List.find?_some hf)
    rw [if_neg hfind] at hc
    have h1 := List.one_le_count_iff.mpr h
    show q ∈ put mem n p L
    exact List.one_le_count_iff.mp (by omega)
  | none =>
    simp only
    split
    · exact List.mem_filter.mpr ⟨h, by simp [hno]⟩
    · exact h

theorem named_foldl : ∀ (envp L : List Ptr),
    (∀ p ∈ envp.foldl (fun L p => putString mem p L) L, ∃ n, nameOf (mem p) = some n) ↔
      ∀ p ∈ L, ∃ n, nameOf (mem p) = some n
  | [], _ => Iff.rfl
  | p :: envp, L => by
    rw [List.foldl_cons, named_foldl envp]
    constructor
    · intro h q hq
      cases hs : nameOf (mem q) with
      | some n => exact ⟨n, rfl⟩
      | none =>
        obtain ⟨n, hn⟩ := h q (unnamed_stays mem hs hq)
        rw [hs] at hn; cases hn
    · intro h q hq
      rcases mem_putString mem hq with hq | ⟨rfl, hn⟩
      · exact h q hq
      · exact hn

end

/-! ## A reset that goes well -/

theorem rmAdd_absent (q : Ptr) : ∀ {l : List (Option Ptr)}, some q ∉ l → rmAdd l (some q) none = (l, none)
  | [], _ => rfl
  | slot :: l, h => by
    have ih := rmAdd_absent q (l := l) fun hm => h (List.mem_cons_of_mem _ hm)
    unfold rmAdd
    rw [if_neg fun (e : slot = some q) => h (e ▸ List.mem_cons_self), if_neg fun hc => hc.2 rfl, ih]

theorem envRmAdd_absent {e : Env} {q : Ptr} (h : q ∉ e.live) : envRmAdd e (some q) none = e := by
  unfold envRmAdd
  rw [rmAdd_absent q fun hm => h (List.reduceOption_mem_iff.mpr hm)]
  rfl

theorem strneq_iamroot (s : Str) : strneq s iamroot iamroot.length = true ↔ iamroot <+: s := by
  rw [← strneq_length_iff, strneq, strneq, beq_iff_eq, beq_iff_eq]
  exact eq_comm

/-- Where only `IAMROOT…` strings are the library's, nothing is released. -/
theorem resetLoop_same {e : Env} (h : e.Ok) (hk : ∀ k, .owned k ∈ e.entries → iamroot <+: e.mem (.owned k)) :
    ∀ {L : List Ptr}, (∀ q ∈ L, q ∈ e.entries) → resetLoop e L = some e
  | [], _ => rfl
  | q :: L, hL => by
    have hq := hL q List.mem_cons_self
    have hread : e.read q = some (e.mem q) := if_neg (h.readable hq)
    have ih := resetLoop_same h hk fun r hr => hL r (List.mem_cons_of_mem q hr)
    unfold resetLoop
    simp only [hread, Option.bind_eq_bind, Option.bind_some]
    cases hs : strneq (e.mem q) iamroot iamroot.length with
    | true => exact ih
    | false =>
      have hnot : q ∉ e.live := by
        cases q with
        | caller m => exact h.caller_not_live m
        | owned k =>
          have := (strneq_iamroot _).mpr (hk k hq)
          rw [hs] at this; cases this
      show resetLoop (envRmAdd e (some q) none) L = some e
      rw [envRmAdd_absent hnot]
      exact ih

theorem putAll_callers : ∀ {envp : List Ptr} {e : Env}, e.Ok → (∀ p ∈ envp, ∃ m, p = .caller m) →
    ∃ e', putAll e envp = some e' ∧ e'.Ok ∧ e'.mem = e.mem ∧
      e'.entries = envp.foldl (fun L p => putString e.mem p L) e.entries
  | [], e, h, _ => ⟨e, rfl, h, rfl, rfl⟩
  | p :: envp, e, h, hp => by
    obtain ⟨m, rfl⟩ := hp p List.mem_cons_self
    obtain ⟨e₁, ret, hput, hok, hmem, -, hent⟩ := putenv_eq h m
    obtain ⟨e', hall, hok', hmem', hent'⟩ := putAll_callers hok fun q hq => hp q (List.mem_cons_of_mem _ hq)
    refine ⟨e', ?_, hok', hmem'.trans hmem, ?_⟩
    · unfold putAll
      simp only [hput, Option.bind_eq_bind, Option.bind_some, hall]
    · rw [hent', hmem, hent, List.foldl_cons]

theorem resetenv_eq {e : Env} (h : e.Ok) {envp : List Ptr}
    (hk : ∀ k, .owned k ∈ e.entries → iamroot <+: e.mem (.owned k)) (hc : ∀ p ∈ envp, ∃ m, p = .caller m) :
    ∃ e', resetenv e envp = some e' ∧ e'.Ok ∧ e'.mem = e.mem ∧
      e'.entries = envp.foldl (fun L p => putString e.mem p L) e.entries := by
  obtain ⟨e', hall, hrest⟩ := putAll_callers h hc
  refine ⟨e', ?_, hrest⟩
  unfold resetenv
  simp only [resetLoop_same h hk fun _ hq => hq, Option.bind_eq_bind, Option.bind_some, hall]

/-- The bindings of `n` come out as wanted exactly under the conditions on `n`. -/
theorem bound_iff (e : Env) (envp : List Ptr) {n : Str} (hn : IsName n) :
    (envp.foldl (stepName e.mem n) (e.entries.filter (Names e.mem n))).map e.mem = wanted e envp n ↔
      (envp.filter (Names e.mem n) ≠ [] →
        (envp.filter (About e.mem n)).getLast?.map e.mem = (envp.filter (Names e.mem n)).head?.map e.mem ∧
          ((∃ p ∈ envp, e.mem p = n) ∨ (e.entries.filter (Names e.mem n)).length ≤ 1)) ∧
      (envp.filter (Names e.mem n) = [] → e.entries.filter (Names e.mem n) ≠ [] →
        ((∃ p ∈ envp, e.mem p = n) ↔ ¬ iamroot <+: n)) := by
  rw [foldl_eq e.mem hn]
  unfold wanted
  generalize hold : e.entries.filter (Names e.mem n) = old
  cases hdef : envp.filter (Names e.mem n) with
  | cons p₀ rest =>
    have hp₀ : p₀ ∈ envp ∧ Names e.mem n p₀ = true :=
      List.mem_filter.mp (by rw [hdef]; exact List.mem_cons_self)
    simp only [ne_eq, reduceCtorEq, not_false_eq_true, true_implies, false_implies, and_true, List.head?_cons,
      Option.map_some]
    cases hlast : (envp.filter (About e.mem n)).getLast? with
    | none =>
      have hab : p₀ ∈ envp.filter (About e.mem n) :=
        List.mem_filter.mpr ⟨hp₀.1, by unfold About; rw [hp₀.2]; rfl⟩
      rw [List.getLast?_eq_none_iff.mp hlast] at hab
      cases hab
    | some p =>
      by_cases hp : Names e.mem n p = true
      · simp only [hp, if_true, List.map_cons, Option.map_some, List.cons.injEq, Option.some.injEq]
        refine and_congr_right fun _ => ?_
        rw [List.map_eq_nil_iff]
        by_cases hbare : ∃ p ∈ envp, e.mem p = n
        · simp only [hbare, if_true, true_or]
        · simp only [hbare, if_false, false_or]
          rw [← List.length_eq_zero_iff, List.length_tail]
          omega
      · have hne : e.mem p ≠ e.mem p₀ := fun he => hp (by unfold Names; rw [he]; exact hp₀.2)
        simp [hp, hne]
  | nil =>
    simp only [ne_eq, not_true_eq_false, false_implies, true_and, true_implies]
    cases hlast : (envp.filter (About e.mem n)).getLast? with
    | none =>
      have hno : ¬ ∃ p ∈ envp, e.mem p = n := by
        rintro ⟨p, hp, he⟩
        have hab : p ∈ envp.filter (About e.mem n) := List.mem_filter.mpr ⟨hp, by unfold About; simp [he]⟩
        rw [List.getLast?_eq_none_iff.mp hlast] at hab
        cases hab
      by_cases hi : iamroot <+: n
      · simp [hi, hno]
      · simp [hi, hno]
    | some p =>
      have hmem : p ∈ envp.filter (About e.mem n) := List.mem_of_getLast? hlast
      obtain ⟨hp, hab⟩ := List.mem_filter.mp hmem
      have hnot : ¬ Names e.mem n p = true := fun hh => by
        have : p ∈ envp.filter (Names e.mem n) := List.mem_filter.mpr ⟨hp, hh⟩
        rw [hdef] at this; cases this
      have hbare : ∃ p ∈ envp, e.mem p = n := by
        refine ⟨p, hp, ?_⟩
        unfold About at hab
        simpa [hnot] using hab
      simp only [hnot, hbare, true_iff]
      by_cases hi : iamroot <+: n
      · simp [hi, eq_comm]
      · simp [hi]

/-! ## A reset that goes wrong -/

/-- The array holds a released string, or one twice that the table has and `envp` brings. -/
structure Doomed (envp : List Ptr) (e : Env) : Prop where
  nodup : e.live.Nodup
  bad : ∃ q ∈ e.entries, q ∈ e.freed ∨
    q ∈ e.live ∧ 2 ≤ e.entries.count q ∧ q ∈ envp ∧ ∃ n, nameOf (e.mem q) = some n

theorem read_some {e : Env} {q : Ptr} {s : Str} (h : e.read q = some s) : q ∉ e.freed ∧ s = e.mem q := by
  unfold Env.read at h
  split at h
  · cases h
  · rename_i hf
    exact ⟨hf, (Option.some.inj h).symm⟩

theorem putLoop_some {e : Env} {p : Ptr} {s : Str} {l : Nat} : ∀ {L : List Ptr} {r : Option (List Ptr × Ptr)},
    putLoop e p s l L = some r → ∀ env tmp, r = some (env, tmp) → tmp ∉ e.freed ∧
      ∀ q, env.count q + (if tmp = q then 1 else 0) = L.count q + if p = q then 1 else 0
  | [], r, h => by
    unfold putLoop at h
    cases h
    intro env tmp hr
    cases hr
  | q :: L, r, h => by
    unfold putLoop at h
    obtain ⟨t, ht, h⟩ := Option.bind_eq_some_iff.mp h
    obtain ⟨hf, -⟩ := read_some ht
    intro env tmp hr
    split at h
    · rw [hr] at h
      cases h
      refine ⟨hf, fun q' => ?_⟩
      rw [List.count_cons, List.count_cons]
      by_cases h1 : p = q' <;> by_cases h2 : q = q' <;> simp [h1, h2]
    · obtain ⟨r', hr', h⟩ := Option.bind_eq_some_iff.mp h
      rw [hr] at h
      obtain ⟨⟨env', tmp'⟩, rfl, h⟩ := Option.map_eq_some_iff.mp (Option.some.inj h)
      cases h
      obtain ⟨hf', hc⟩ := putLoop_some hr' env' tmp' rfl
      refine ⟨hf', fun q' => ?_⟩
      have := hc q'
      show (q :: env').count q' + (if tmp' = q' then 1 else 0) = (q :: L).count q' + if p = q' then 1 else 0
      rw [List.count_cons, List.count_cons]
      omega

theorem unsetLoop_some {name : Str} {l : Nat} {L : List Ptr} {e : Env} {r : Env × List Ptr} (hd : e.live.Nodup)
    (h : unsetLoop name l e L = some r) : r.1.live.Nodup ∧ r.1.mem = e.mem ∧ (∀ q ∈ L, q ∉ e.freed) ∧
      (∀ q ∈ e.live, bindsAt name (e.mem q) l = true → L.count q ≤ 1) ∧
      ∀ q, ¬ bindsAt name (e.mem q) l = true → r.2.count q = L.count q ∧ (q ∈ e.live → q ∈ r.1.live) := by
  induction L generalizing e r with
  | nil =>
    cases h
    exact ⟨hd, rfl, fun q hq => absurd hq List.not_mem_nil, fun q _ _ => by simp, fun q _ => ⟨rfl, id⟩⟩
  | cons p L ih =>
    unfold unsetLoop at h
    obtain ⟨s, hs, h⟩ := Option.bind_eq_some_iff.mp h
    obtain ⟨hf, rfl⟩ := read_some hs
    split at h
    · rename_i hb
      obtain ⟨hd', hmem, hread, hone, hrest⟩ := ih (nodup_live_envRmAdd e (some p) none hd (by simp)) h
      have hlive : ∀ q, q ≠ p → q ∈ e.live → q ∈ (envRmAdd e (some p) none).live := fun q hqp hq =>
        (mem_live_envRmAdd e (some p) none hd q).mpr (Or.inl ⟨hq, fun h => hqp (Option.some.inj h)⟩)
      refine ⟨hd', hmem, fun q hq => ?_, fun q hql hbq => ?_, fun q hbq => ?_⟩
      · rcases List.mem_cons.mp hq with rfl | hq
        · exact hf
        · exact fun hfq => hread q hq ((mem_freed_envRmAdd e _ _ q).mpr (Or.inl hfq))
      · rw [List.count_cons]
        by_cases hqp : p = q
        · have hnot : q ∉ L := fun hm =>
            hread q hm ((mem_freed_envRmAdd e _ _ q).mpr (Or.inr ⟨congrArg some hqp.symm, hql⟩))
          rw [List.count_eq_zero.mpr hnot]
          simp [hqp]
        · simpa [hqp] using hone q (hlive q (fun h => hqp h.symm) hql) hbq
      · have hqp : p ≠ q := by rintro rfl; exact hbq hb
        rw [List.count_cons_of_ne hqp]
        obtain ⟨h1, h2⟩ := hrest q hbq
        exact ⟨h1, fun hq => h2 (hlive q hqp.symm hq)⟩
    · rename_i hb
      obtain ⟨r', hr', h⟩ := Option.bind_eq_some_iff.mp h
      cases h
      obtain ⟨hd', hmem, hread, hone, hrest⟩ := ih hd hr'
      refine ⟨hd', hmem, fun q hq => ?_, fun q hql hbq => ?_, fun q hbq => ?_⟩
      · rcases List.mem_cons.mp hq with rfl | hq
        · exact hf
        · exact hread q hq
      · have hqp : p ≠ q := by rintro rfl; exact hb hbq
        rw [List.count_cons_of_ne hqp]
        exact hone q hql hbq
      · obtain ⟨h1, h2⟩ := hrest q hbq
        refine ⟨?_, h2⟩
        rw [List.count_cons, List.count_cons, h1]

theorem unsetenv_doomed {envp : List Ptr} {e : Env} (h : Doomed envp e) {name : Str} {r : Env × Int}
    (hr : unsetenv e name = some r) : Doomed envp r.1 ∧ r.1.mem = e.mem := by
  unfold unsetenv at hr
  dsimp only at hr
  split at hr
  · cases hr; exact ⟨h, rfl⟩
  · cases henv : e.environ with
    | none =>
      rw [henv] at hr
      cases hr; exact ⟨h, rfl⟩
    | some env =>
      have hent : e.entries = env := by unfold Env.entries; rw [henv]; rfl
      rw [henv] at hr
      obtain ⟨r', hr', hr⟩ := Option.bind_eq_some_iff.mp hr
      cases hr
      obtain ⟨hd, hmem, hread, hone, hrest⟩ := unsetLoop_some h.nodup hr'
      obtain ⟨q, hq, hbad⟩ := h.bad
      rw [hent] at hq hbad
      refine ⟨⟨hd, q, ?_⟩, hmem⟩
      rcases hbad with hf | ⟨hl, hc, hp, hn⟩
      · exact absurd hf (hread q hq)
      · have hb : ¬ bindsAt name (e.mem q) _ = true := fun hb => by
          have := hone q hl hb
          omega
        obtain ⟨hcount, hlive⟩ := hrest q hb
        have hc' : 2 ≤ r'.2.count q := by omega
        refine ⟨List.one_le_count_iff.mp (by show 1 ≤ r'.2.count q; omega), Or.inr ⟨hlive hl, hc', hp, ?_⟩⟩
        rw [← hmem] at hn
        exact hn

theorem putenvAt_doomed {envp : List Ptr} {e : Env} (h : Doomed envp e) {p : Ptr} {s : Str} {l : Nat} {e' : Env}
    (hr : putenvAt e p s l none = some e') : Doomed envp e' ∧ e'.mem = e.mem := by
  unfold putenvAt at hr
  obtain ⟨r, hr', hr⟩ := Option.bind_eq_some_iff.mp hr
  obtain ⟨q, hq, hbad⟩ := h.bad
  have h1 := List.one_le_count_iff.mpr hq
  cases r with
  | none =>
    cases hr
    refine ⟨⟨h.nodup, q, List.mem_append_left _ hq, hbad.imp_right ?_⟩, rfl⟩
    rintro ⟨hl, hc, hp, hn⟩
    refine ⟨hl, ?_, hp, hn⟩
    show 2 ≤ (e.entries ++ [p]).count q
    rw [List.count_append]
    omega
  | some r =>
    obtain ⟨env, tmp⟩ := r
    obtain ⟨htmp, hcount⟩ := putLoop_some hr' env tmp rfl
    cases hr
    have hcq := hcount q
    have hfreed := mem_freed_envRmAdd { e with environ := some env } (some tmp) none q
    have hlive := mem_live_envRmAdd { e with environ := some env } (some tmp) none h.nodup q
    have hent : (envRmAdd { e with environ := some env } (some tmp) none).entries = env := rfl
    refine ⟨⟨nodup_live_envRmAdd _ _ _ h.nodup nofun, q, ?_⟩, rfl⟩
    rw [hent]
    rcases hbad with hf | ⟨hl, hc, hp, hn⟩
    · have hne : ¬ tmp = q := by rintro rfl; exact htmp hf
      rw [if_neg hne] at hcq
      exact ⟨List.one_le_count_iff.mp (by omega), Or.inl (hfreed.mpr (Or.inl hf))⟩
    · by_cases hne : tmp = q
      · rw [if_pos hne] at hcq
        exact ⟨List.one_le_count_iff.mp (by omega), Or.inl (hfreed.mpr (Or.inr ⟨congrArg some hne.symm, hl⟩))⟩
      · rw [if_neg hne] at hcq
        exact ⟨List.one_le_count_iff.mp (by omega), Or.inr ⟨hlive.mpr (Or.inl ⟨hl, fun h =>
          hne (Option.some.inj h).symm⟩), by omega, hp, hn⟩⟩

theorem putAll_doomed {envp : List Ptr} : ∀ {L : List Ptr} {e e' : Env}, Doomed envp e → putAll e L = some e' →
    Doomed envp e' ∧ e'.mem = e.mem
  | [], e, e', h, hr => by
    cases hr
    exact ⟨h, rfl⟩
  | p :: L, e, e', h, hr => by
    unfold putAll at hr
    obtain ⟨r, hput, hr⟩ := Option.bind_eq_some_iff.mp hr
    have hstep : Doomed envp r.1 ∧ r.1.mem = e.mem := by
      unfold putenv at hput
      obtain ⟨s, -, hput⟩ := Option.bind_eq_some_iff.mp hput
      dsimp only at hput
      split at hput
      · exact unsetenv_doomed h hput
      · obtain ⟨e₁, hat, hput⟩ := Option.bind_eq_some_iff.mp hput
        cases hput
        exact putenvAt_doomed h hat
    obtain ⟨hd, hmem⟩ := putAll_doomed hstep.1 hr
    exact ⟨hd, hmem.trans hstep.2⟩

/-- A string of the table is released as it is put, or then stands in the array twice. -/
theorem putAll_owned {envp : List Ptr} : ∀ {L : List Ptr} {e e' : Env}, e.Ok → (∀ q ∈ L, q ∈ envp) →
    (∀ k, .owned k ∈ L → k < e.next) → (∃ k, .owned k ∈ L) → putAll e L = some e' → Doomed envp e' ∧ e'.mem = e.mem
  | [], _, _, _, _, _, ⟨k, hk⟩, _ => absurd hk List.not_mem_nil
  | .caller m :: L, e, e', h, hL, hlt, ⟨k, hk⟩, hr => by
    obtain ⟨e₁, ret, hput, hok, hmem, hnext, -⟩ := putenv_eq h m
    unfold putAll at hr
    rw [hput] at hr
    have hk' : Ptr.owned k ∈ L := (List.mem_cons.mp hk).resolve_left nofun
    obtain ⟨hd, hmem'⟩ := putAll_owned hok (fun q hq => hL q (List.mem_cons_of_mem _ hq))
      (fun j hj => hnext ▸ hlt j (List.mem_cons_of_mem _ hj)) ⟨k, hk'⟩ hr
    exact ⟨hd, hmem'.trans hmem⟩
  | .owned k :: L, e, e', h, hL, hlt, _, hr => by
    have hk := hlt k List.mem_cons_self
    unfold putAll putenv at hr
    obtain ⟨r, hput, hr⟩ := Option.bind_eq_some_iff.mp hr
    obtain ⟨s, hs, hput⟩ := Option.bind_eq_some_iff.mp hput
    obtain ⟨hf, rfl⟩ := read_some hs
    obtain ⟨n, hn⟩ := h.named k hk
    have hne : ¬ (nameLen (e.mem (.owned k)) = 0 ∨ nameLen (e.mem (.owned k)) = (e.mem (.owned k)).length) := by
      rw [← nameOf_eq_none, hn]; exact nofun
    simp only [if_neg hne, putenvAt_eq (fun q hq => h.readable hq) hn] at hput
    cases hput
    have hl : Ptr.owned k ∈ e.live := (h.lt k hk).resolve_left hf
    have hcount := count_put e.mem n (.owned k) (.owned k) e.entries
    rw [h.live_once _ hl, if_pos rfl] at hcount
    have hd : Doomed envp (putState e n (.owned k) none) := by
      refine ⟨nodup_live_envRmAdd _ _ _ h.live_nodup nofun, .owned k, self_mem_put e.mem n _ e.entries, ?_⟩
      by_cases hfind : e.entries.find? (Names e.mem n) = some (.owned k)
      · exact Or.inl ((mem_freed_envRmAdd { e with environ := some (put e.mem n (.owned k) e.entries) } _ none _).mpr
          (Or.inr ⟨hfind.symm, hl⟩))
      · rw [if_neg hfind] at hcount
        refine Or.inr ⟨(mem_live_envRmAdd { e with environ := some (put e.mem n (.owned k) e.entries) } _ none
          h.live_nodup _).mpr (Or.inl ⟨hl, Ne.symm hfind⟩), ?_, hL _ List.mem_cons_self, n, hn⟩
        show 2 ≤ (put e.mem n (.owned k) e.entries).count (.owned k)
        omega
    have hall := putAll_doomed hd hr
    exact hall

theorem resetLoop_some : ∀ {L : List Ptr} {e e' : Env}, e.live.Nodup → resetLoop e L = some e' →
    e'.live.Nodup ∧ e'.mem = e.mem ∧ e'.entries = e.entries ∧ (∀ q ∈ e.freed, q ∈ e'.freed) ∧
      ∀ q ∈ L, q ∈ e.live → ¬ iamroot <+: e.mem q → q ∈ e'.freed
  | [], e, e', hd, h => by
    cases h
    exact ⟨hd, rfl, rfl, fun _ h => h, fun q hq => absurd hq List.not_mem_nil⟩
  | p :: L, e, e', hd, h => by
    unfold resetLoop at h
    obtain ⟨s, hs, h⟩ := Option.bind_eq_some_iff.mp h
    obtain ⟨-, rfl⟩ := read_some hs
    cases hi : strneq (e.mem p) iamroot iamroot.length with
    | true =>
      simp only [hi, Bool.not_true, Bool.false_eq_true, if_false] at h
      obtain ⟨hd', hmem, hent, hfr, hrest⟩ := resetLoop_some hd h
      refine ⟨hd', hmem, hent, hfr, fun q hq hl hnot => ?_⟩
      rcases List.mem_cons.mp hq with rfl | hq
      · exact absurd ((strneq_iamroot _).mp hi) hnot
      · exact hrest q hq hl hnot
    | false =>
      simp only [hi, Bool.not_false, if_true] at h
      obtain ⟨hd', hmem, hent, hfr, hrest⟩ := resetLoop_some (nodup_live_envRmAdd e (some p) none hd nofun) h
      have hfreed := fun q hq => hfr q ((mem_freed_envRmAdd e (some p) none q).mpr hq)
      refine ⟨hd', hmem, hent, fun q hq => hfreed q (Or.inl hq), fun q hq hl hnot => ?_⟩
      by_cases hqp : q = p
      · exact hfreed q (Or.inr ⟨congrArg some hqp, hl⟩)
      · exact hrest q ((List.mem_cons.mp hq).resolve_left hqp)
          ((mem_live_envRmAdd e (some p) none hd q).mpr (Or.inl ⟨hl, fun h => hqp (Option.some.inj h)⟩)) hnot

theorem not_rebound_of_doomed {e e' : Env} {envp : List Ptr} (hd : Doomed envp e') (hmem : e'.mem = e.mem) :
    ¬ Rebound e envp e' := by
  intro h
  obtain ⟨q, hq, hf | ⟨-, hc, hp, n, hn⟩⟩ := hd.bad
  · exact h.live q hq hf
  · have hb := congrArg List.length (h.bound n)
    rw [hmem] at hb hn
    have hN : Names e.mem n q = true := beq_iff_eq.mpr hn
    have hlen : (wanted e envp n).length = 1 := by
      unfold wanted
      cases hfil : envp.filter (Names e.mem n) with
      | nil =>
        have : q ∈ envp.filter (Names e.mem n) := List.mem_filter.mpr ⟨hp, hN⟩
        rw [hfil] at this; cases this
      | cons p rest => rfl
    have hle : (e'.entries.filter (Names e.mem n)).count q ≤ (e'.entries.filter (Names e.mem n)).length :=
      List.count_le_length
    rw [List.count_filter hN] at hle
    rw [List.length_map] at hb
    omega

/-! ## The theorem -/

/-- **The environment handed to an exec**, after any run of the library's calls:
`_resetenv` makes of it what `envp` asks for exactly when the library owns no old
string but the `IAMROOT…` ones and none of `envp`, and each variable of either
comes out right by the strings about it. -/
theorem resetenv_rebinds_iff (mem : Ptr → Str) (env : List Nat) (l : List EnvCall) (e : Env)
    (he : Run.exec envStep (some (Env.start mem env)) l = some e) (envp : List Ptr)
    (hp : ∀ k, .owned k ∈ envp → k < e.next) :
    (∃ e', resetenv e envp = some e' ∧ Rebound e envp e') ↔ Rebinds e envp := by
  obtain ⟨e₀, he₀, h⟩ := env_run_ok mem env l
  rw [he] at he₀
  cases he₀
  by_cases hk : ∀ k, .owned k ∈ e.entries → iamroot <+: e.mem (.owned k)
  · by_cases hc : ∀ p ∈ envp, ∃ m, p = .caller m
    · obtain ⟨e', hr, hok, hmem, hent⟩ := resetenv_eq h hk hc
      have hfil : ∀ n, IsName n → (e'.entries.filter (Names e'.mem n)).map e'.mem =
          (envp.foldl (stepName e.mem n) (e.entries.filter (Names e.mem n))).map e.mem := fun n hn => by
        rw [hmem, hent, filter_foldl e.mem hn]
      have hnamed := named_foldl e.mem envp e.entries
      constructor
      · rintro ⟨e'', hr', hb⟩
        rw [hr] at hr'
        cases hr'
        refine ⟨hk, hc, hnamed.mp (hent ▸ hmem ▸ hb.named), fun n hdef => ?_, fun n hdef hold => ?_⟩
        · obtain ⟨p, hp⟩ := List.exists_mem_of_ne_nil _ hdef
          have hn := names_isName (List.mem_filter.mp hp).2
          exact ((bound_iff e envp hn).mp ((hfil n hn).symm.trans (hb.bound n))).1 hdef
        · obtain ⟨p, hp⟩ := List.exists_mem_of_ne_nil _ hold
          have hn := names_isName (List.mem_filter.mp hp).2
          exact ((bound_iff e envp hn).mp ((hfil n hn).symm.trans (hb.bound n))).2 hdef hold
      · intro hreb
        refine ⟨e', hr, fun p hp => hok.readable hp, ?_, fun n => ?_⟩
        · rw [hent, hmem]
          exact hnamed.mpr hreb.named
        · by_cases hn : IsName n
          · exact (hfil n hn).trans ((bound_iff e envp hn).mpr ⟨hreb.defined n, hreb.others n⟩)
          · have hnil : ∀ L : List Ptr, L.filter (Names e.mem n) = [] := fun L =>
              List.filter_eq_nil_iff.mpr fun p _ hh => hn (names_isName hh)
            unfold wanted
            simp only [hmem, hnil, List.map_nil, ite_self]
    · refine ⟨fun ⟨e', hr, hb⟩ => ?_, fun hreb => absurd hreb.callers hc⟩
      exfalso
      unfold resetenv at hr
      rw [resetLoop_same h hk fun _ hq => hq] at hr
      have hown : ∃ k, Ptr.owned k ∈ envp := by
        by_contra hno
        refine hc fun p hpm => ?_
        cases p with
        | caller m => exact ⟨m, rfl⟩
        | owned k => exact absurd ⟨k, hpm⟩ hno
      obtain ⟨hd, hmem⟩ := putAll_owned h (fun _ hq => hq) hp hown hr
      exact not_rebound_of_doomed hd hmem hb
  · refine ⟨fun ⟨e', hr, hb⟩ => ?_, fun hreb => absurd hreb.kept hk⟩
    exfalso
    obtain ⟨k, hk⟩ := not_forall.mp hk
    obtain ⟨hkm, hki⟩ := Classical.not_imp.mp hk
    unfold resetenv at hr
    obtain ⟨e₁, hloop, hr⟩ := Option.bind_eq_some_iff.mp hr
    obtain ⟨hd, hmem, hent, -, hfr⟩ := resetLoop_some h.live_nodup hloop
    have hfreed := hfr _ hkm (h.entries_live k hkm) hki
    obtain ⟨hd', hmem'⟩ := putAll_doomed ⟨hd, _, hent ▸ hkm, Or.inl hfreed⟩ hr
    exact not_rebound_of_doomed hd' (hmem'.trans hmem) hb

def sampleMem : Ptr → Str
  | .caller 0 => ['A', '=', '1']
  | .caller 1 => ['B', '=', '2']
  | .caller _ => ['A', '=', '3']
  | .owned _ => []

theorem sample_names (n : Str) (k : Nat) : Names sampleMem n (.caller k) = true ↔
    n = if k = 1 then ['B'] else ['A'] := by
  unfold Names
  rw [beq_iff_eq]
  match k with
  | 0 => exact ⟨fun h => (Option.some.inj h).symm, fun h => congrArg some h.symm⟩
  | 1 => exact ⟨fun h => (Option.some.inj h).symm, fun h => congrArg some h.symm⟩
  | k + 2 =>
    rw [if_neg (by omega)]
    exact ⟨fun h => (Option.some.inj h).symm, fun h => congrArg some h.symm⟩

theorem resetenv_redefines : ∃ e', resetenv (Env.start sampleMem [0]) [.caller 2] = some e' ∧
    Rebound (Env.start sampleMem [0]) [.caller 2] e' := by
  refine (resetenv_rebinds_iff sampleMem [0] [] _ rfl [.caller 2] (fun k hk => by simp at hk)).mpr ⟨?_, ?_, ?_, ?_, ?_⟩
  · intro k hk
    simp [Env.entries, Env.start] at hk
  · intro p hp
    exact ⟨2, List.mem_singleton.mp hp⟩
  · intro p hp
    rw [List.mem_singleton.mp hp]
    exact ⟨['A'], rfl⟩
  · intro n hdef
    have hn : n = ['A'] := by
      by_contra hne
      refine hdef (List.filter_eq_nil_iff.mpr fun p hp hh => hne ?_)
      rw [List.mem_singleton.mp hp] at hh
      exact (sample_names n 2).mp hh
    subst hn
    exact ⟨rfl, Or.inr (Nat.le_refl 1)⟩
  · intro n hdef hold
    have hn : n = ['A'] := by
      by_contra hne
      refine hold (List.filter_eq_nil_iff.mpr fun p hp hh => hne ?_)
      rw [List.mem_singleton.mp hp] at hh
      exact (sample_names n 0).mp hh
    subst hn
    cases hdef

/-- The old `A=1` survives an `envp` of `B=2` alone; and when it is a string
that `setenv` made, it is read after its release. -/
theorem resetenv_leaves : (∃ e', resetenv (Env.start sampleMem [0]) [.caller 1] = some e' ∧
      e'.entries.map e'.mem = [['A', '=', '1'], ['B', '=', '2']] ∧
      ¬ Rebound (Env.start sampleMem [0]) [.caller 1] e') ∧
    ∃ e, Run.exec envStep (some (Env.start sampleMem [])) [.setenv ['A'] ['1'] true] = some e ∧
      resetenv e [.caller 1] = none := by
  refine ⟨⟨_, rfl, rfl, fun h => ?_⟩, _, rfl, rfl⟩
  have hA := h.bound ['A']
  exact absurd hA (by decide)

end Iamroot
