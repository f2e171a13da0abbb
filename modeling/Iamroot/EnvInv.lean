import Mathlib.Data.List.TakeWhile
import Mathlib.Data.List.Nodup
import Iamroot.Env

/-!
# What holds of the environment in every run

Every string that `setenv` has allocated is either released or in the table,
and one that is in the table stands in the array exactly once. So the library's
own calls never read a released string, and what they do to the array is what
they do to a list of bindings.
-/

namespace Iamroot

/-! ## Names -/

def nameOf (s : Str) : Option Str :=
  let n := s.takeWhile (· ≠ '=')
  if n = [] ∨ n.length = s.length then none else some n

theorem takeWhile_name {x : Char} {n : Str} (h : x ∉ n) (v : Str) : (n ++ x :: v).takeWhile (· ≠ x) = n := by
  rw [List.takeWhile_append_of_pos]
  · simp
  · intro c hc
    simp only [ne_eq, decide_eq_true_eq]
    rintro rfl
    exact h hc

theorem nameOf_eq_some {s n : Str} : nameOf s = some n ↔ n ≠ [] ∧ '=' ∉ n ∧ ∃ v, s = n ++ '=' :: v := by
  constructor
  · intro h
    unfold nameOf at h
    simp only at h
    split at h
    · cases h
    · rename_i hc
      cases h
      refine ⟨fun e => hc (Or.inl e), fun hm => ?_, ?_⟩
      · have := List.mem_takeWhile_imp hm
        simp at this
      · have hs := List.takeWhile_append_dropWhile (p := fun c : Char => decide (c ≠ '=')) (l := s)
        cases hd : s.dropWhile (fun c : Char => decide (c ≠ '=')) with
        | nil =>
          rw [hd, List.append_nil] at hs
          exact absurd (Or.inr (congrArg List.length hs)) hc
        | cons c v =>
          have hc := List.head?_dropWhile_not (fun c : Char => decide (c ≠ '=')) s
          rw [hd] at hc
          have hc : c = '=' := by simpa using hc
          rw [hd, hc] at hs
          exact ⟨v, hs.symm⟩
  · rintro ⟨hn, hm, v, rfl⟩
    unfold nameOf
    simp only [takeWhile_name hm]
    rw [if_neg]
    rintro (h | h)
    · exact hn h
    · simp at h

theorem nameLen_of_name {s n : Str} (h : nameOf s = some n) : nameLen s = n.length := by
  obtain ⟨-, hm, v, rfl⟩ := nameOf_eq_some.mp h
  unfold nameLen
  rw [takeWhile_name hm]

theorem take_succ_eq_iff {n t : Str} : t.take (n.length + 1) = n ++ ['='] ↔ ∃ v, t = n ++ '=' :: v := by
  constructor
  · intro h
    refine ⟨t.drop (n.length + 1), ?_⟩
    have := List.take_append_drop (n.length + 1) t
    rw [h, List.append_assoc] at this
    exact this.symm
  · rintro ⟨v, rfl⟩
    rw [List.take_append, List.take_of_length_le (Nat.le_succ _), Nat.add_sub_cancel_left]
    rfl

theorem strneq_name {s n : Str} (h : nameOf s = some n) (t : Str) :
    strneq s t (nameLen s + 1) = true ↔ nameOf t = some n := by
  obtain ⟨hn, hm, v, rfl⟩ := nameOf_eq_some.mp h
  rw [nameLen_of_name h, strneq, beq_iff_eq, take_succ_eq_iff.mpr ⟨v, rfl⟩, eq_comm, take_succ_eq_iff, nameOf_eq_some]
  exact ⟨fun h => ⟨hn, hm, h⟩, fun h => h.2.2⟩

def IsName (n : Str) : Prop := n ≠ [] ∧ '=' ∉ n

instance (n : Str) : Decidable (IsName n) := inferInstanceAs (Decidable (n ≠ [] ∧ '=' ∉ n))

theorem nameLen_isName {n : Str} (h : IsName n) : nameLen n = n.length := by
  unfold nameLen
  rw [List.takeWhile_eq_self_iff.mpr]
  intro c hc
  simp only [ne_eq, decide_eq_true_eq]
  rintro rfl
  exact h.2 hc

theorem isName_iff {n : Str} : IsName n ↔ ¬ (nameLen n = 0 ∨ nameLen n < n.length) := by
  constructor
  · intro h
    rw [nameLen_isName h]
    rintro (h0 | h0)
    · exact h.1 (List.length_eq_zero_iff.mp h0)
    · exact Nat.lt_irrefl _ h0
  · intro h
    have hl : n.takeWhile (· ≠ '=') = n := by
      refine List.IsPrefix.eq_of_length (List.takeWhile_prefix _) ?_
      exact Nat.le_antisymm (List.takeWhile_prefix _).length_le (Nat.not_lt.mp fun hlt => h (Or.inr hlt))
    refine ⟨fun e => h (Or.inl (by rw [e]; rfl)), fun hm => ?_⟩
    rw [← hl] at hm
    have := List.mem_takeWhile_imp hm
    simp at this

theorem bindsAt_iff {n : Str} (h : IsName n) (s : Str) : bindsAt n s (nameLen n) = true ↔ nameOf s = some n := by
  rw [nameLen_isName h, bindsAt, Bool.and_eq_true, strneq, beq_iff_eq, beq_iff_eq, List.take_length, nameOf_eq_some]
  constructor
  · rintro ⟨ht, hg⟩
    refine ⟨h.1, h.2, s.drop (n.length + 1), ?_⟩
    obtain ⟨hlt, hg⟩ := List.getElem?_eq_some_iff.mp hg
    rw [← hg]
    calc s = s.take n.length ++ s.drop n.length := (List.take_append_drop _ _).symm
      _ = n ++ s[n.length] :: s.drop (n.length + 1) := by rw [← ht, List.drop_eq_getElem_cons hlt]
  · rintro ⟨-, -, v, rfl⟩
    exact ⟨by rw [List.take_left], by rw [List.getElem?_append_right (Nat.le_refl _), Nat.sub_self]; rfl⟩

/-! ## The table -/

def Env.live (e : Env) : List Ptr := e.alloced.reduceOption

theorem rmAdd_none : ∀ (l : List (Option Ptr)) (new : Option Ptr),
    (rmAdd l none new).1.reduceOption.Perm (l.reduceOption ++ new.toList) ∧ (rmAdd l none new).2 = none
  | [], none => ⟨List.Perm.refl _, rfl⟩
  | [], some p => ⟨List.Perm.refl _, rfl⟩
  | none :: l, new => by
    unfold rmAdd
    rw [if_pos rfl]
    refine ⟨?_, rfl⟩
    cases new with
    | none => simp
    | some p => simpa using (List.perm_append_singleton p l.reduceOption).symm
  | some r :: l, new => by
    obtain ⟨ih, ih'⟩ := rmAdd_none l new
    unfold rmAdd
    rw [if_neg nofun, if_neg (fun h => by cases h.1)]
    exact ⟨by simpa using ih, ih'⟩

theorem rmAdd_some (q : Ptr) : ∀ (l : List (Option Ptr)) (new : Option Ptr),
    (rmAdd l (some q) new).1.reduceOption.Perm (l.reduceOption.erase q ++ new.toList) ∧
      (rmAdd l (some q) new).2 = if q ∈ l.reduceOption then some q else none
  | [], none => ⟨List.Perm.refl _, rfl⟩
  | [], some p => ⟨List.Perm.refl _, rfl⟩
  | none :: l, none => by
    obtain ⟨ih, ih'⟩ := rmAdd_some q l none
    unfold rmAdd
    rw [if_neg nofun, if_neg (fun h => h.2 rfl)]
    exact ⟨by simpa using ih, by simpa using ih'⟩
  | none :: l, some p => by
    obtain ⟨ih, ih'⟩ := rmAdd_some q l none
    unfold rmAdd
    rw [if_neg nofun, if_pos ⟨rfl, nofun⟩]
    refine ⟨?_, by simpa using ih'⟩
    have h := (ih.cons p).trans (List.perm_append_singleton p _).symm
    simpa using h
  | some r :: l, new => by
    obtain ⟨ih, ih'⟩ := rmAdd_some q l new
    unfold rmAdd
    by_cases h : r = q
    · subst h
      rw [if_pos rfl]
      refine ⟨?_, by simp⟩
      cases new with
      | none => simp
      | some p => simpa using (List.perm_append_singleton p l.reduceOption).symm
    · have h' : ¬ some r = some q := fun e => h (Option.some.inj e)
      rw [if_neg h', if_neg (fun e => by cases e.1)]
      have hq : ¬ q = r := fun e => h e.symm
      refine ⟨?_, by simp [ih', hq]⟩
      simpa [List.erase_cons_tail, h] using ih

section
variable (e : Env) (old new : Option Ptr)

@[simp] theorem envRmAdd_mem : (envRmAdd e old new).mem = e.mem := rfl

theorem live_envRmAdd : (envRmAdd e old new).live.Perm
    ((match old with
      | none => e.live
      | some q => e.live.erase q) ++ new.toList) := by
  cases old with
  | none => exact (rmAdd_none e.alloced new).1
  | some q => exact (rmAdd_some q e.alloced new).1

theorem mem_live_envRmAdd (hn : e.live.Nodup) (p : Ptr) :
    p ∈ (envRmAdd e old new).live ↔ p ∈ e.live ∧ some p ≠ old ∨ some p = new := by
  rw [(live_envRmAdd e old new).mem_iff]
  cases old with
  | none => cases new <;> simp
  | some q => cases new <;> simp [hn.mem_erase_iff, and_comm]

theorem mem_freed_envRmAdd (p : Ptr) :
    p ∈ (envRmAdd e old new).freed ↔ p ∈ e.freed ∨ some p = old ∧ p ∈ e.live := by
  show p ∈ (rmAdd e.alloced old new).2.toList ++ e.freed ↔ _
  cases old with
  | none => rw [(rmAdd_none e.alloced new).2]; simp
  | some q =>
    rw [(rmAdd_some q e.alloced new).2]
    by_cases h : q ∈ e.alloced.reduceOption
    · simp only [if_pos h, Option.toList_some, List.singleton_append, List.mem_cons, Option.some.injEq]
      exact ⟨fun hh => hh.symm.imp_right fun e => ⟨e, e ▸ h⟩, fun hh => hh.symm.imp_left And.left⟩
    · simp only [if_neg h, Option.toList_none, List.nil_append, Option.some.injEq]
      exact ⟨Or.inl, fun hh => hh.elim id fun e' => absurd (e'.1 ▸ e'.2) h⟩

theorem nodup_live_envRmAdd (hn : e.live.Nodup) (hnew : ∀ p, new = some p → p ∉ e.live) :
    (envRmAdd e old new).live.Nodup := by
  rw [(live_envRmAdd e old new).nodup_iff]
  have hsub : ∀ l : List Ptr, l.Nodup → (∀ p ∈ l, p ∈ e.live) → (l ++ new.toList).Nodup := by
    intro l hl hs
    cases new with
    | none => simpa using hl
    | some p =>
      rw [Option.toList_some, List.nodup_append]
      refine ⟨hl, List.nodup_singleton p, fun a ha b hb => ?_⟩
      rw [List.mem_singleton.mp hb]
      rintro rfl
      exact hnew a rfl (hs a ha)
  cases old with
  | none => exact hsub _ hn fun _ h => h
  | some q => exact hsub _ (hn.erase q) fun _ h => List.mem_of_mem_erase h

end

/-! ## The array as a list of bindings -/

def Names (mem : Ptr → Str) (n : Str) (p : Ptr) : Bool := nameOf (mem p) == some n

/-- What `putenv` does to the list: the first binding of `n` gives way, or `p` is added. -/
def put (mem : Ptr → Str) (n : Str) (p : Ptr) : List Ptr → List Ptr
  | [] => [p]
  | q :: L => if Names mem n q then p :: L else q :: put mem n p L

def unset (mem : Ptr → Str) (n : Str) (L : List Ptr) : List Ptr := L.filter fun q => !Names mem n q

section
variable (mem : Ptr → Str) (n : Str) (p : Ptr)

theorem mem_put {q : Ptr} : ∀ {L : List Ptr}, q ∈ put mem n p L → q = p ∨ q ∈ L
  | [], h => Or.inl (List.mem_singleton.mp h)
  | r :: L, h => by
    unfold put at h
    split at h
    · exact (List.mem_cons.mp h).imp_right (List.mem_cons_of_mem r)
    · rcases List.mem_cons.mp h with rfl | h
      · exact Or.inr List.mem_cons_self
      · exact (mem_put h).imp_right (List.mem_cons_of_mem r)

theorem self_mem_put : ∀ L : List Ptr, p ∈ put mem n p L
  | [] => List.mem_singleton.mpr rfl
  | r :: L => by
    unfold put
    split
    · exact List.mem_cons_self
    · exact List.mem_cons_of_mem r (self_mem_put L)

theorem count_put (q : Ptr) : ∀ L : List Ptr,
    (put mem n p L).count q + (if L.find? (Names mem n) = some q then 1 else 0) = L.count q + if p = q then 1 else 0
  | [] => by
    unfold put
    by_cases h : p = q <;> simp [h]
  | r :: L => by
    unfold put
    by_cases hr : Names mem n r = true
    · rw [if_pos hr, List.find?_cons_of_pos hr, List.count_cons, List.count_cons]
      by_cases h : p = q <;> by_cases h' : r = q <;> simp [h, h']
    · have ih := count_put q L
      rw [if_neg hr, List.find?_cons_of_neg hr, List.count_cons, List.count_cons]
      omega

theorem put_of_find_none : ∀ {L : List Ptr}, L.find? (Names mem n) = none → put mem n p L = L ++ [p]
  | [], _ => rfl
  | r :: L, h => by
    have hr : ¬ Names mem n r = true := List.find?_eq_none.mp h r List.mem_cons_self
    rw [List.find?_cons_of_neg hr] at h
    unfold put
    rw [if_neg hr, put_of_find_none h]
    rfl

theorem count_unset (q : Ptr) (L : List Ptr) : (unset mem n L).count q = if Names mem n q then 0 else L.count q := by
  unfold unset
  by_cases h : Names mem n q = true
  · rw [if_pos h, List.count_eq_zero]
    intro hm
    have := (List.mem_filter.mp hm).2
    rw [h] at this
    cases this
  · rw [if_neg h, List.count_filter]
    simpa using h

end

/-! ## The loops, when nothing in the array is released -/

theorem putLoop_eq {e : Env} {p : Ptr} {s n : Str} (hs : nameOf s = some n) : ∀ {L : List Ptr},
    (∀ q ∈ L, q ∉ e.freed) → putLoop e p s (nameLen s) L =
      some ((L.find? (Names e.mem n)).map fun tmp => (put e.mem n p L, tmp))
  | [], _ => rfl
  | q :: L, h => by
    have hq : e.read q = some (e.mem q) := if_neg (h q List.mem_cons_self)
    have ih := putLoop_eq (p := p) hs fun r hr => h r (List.mem_cons_of_mem q hr)
    unfold putLoop put
    rw [hq]
    by_cases hn : Names e.mem n q = true
    · have hc := (strneq_name hs (e.mem q)).mpr (beq_iff_eq.mp hn)
      simp only [Option.bind_eq_bind, Option.bind_some, hc, if_true, List.find?_cons_of_pos hn, Option.map_some, hn]
    · have hc : ¬ strneq s (e.mem q) (nameLen s + 1) = true := fun hh =>
        hn (beq_iff_eq.mpr ((strneq_name hs _).mp hh))
      simp only [Option.bind_eq_bind, Option.bind_some, hc, Bool.false_eq_true, if_false, List.find?_cons_of_neg hn, hn, ih,
        Option.map_map]
      rfl

def releaseAll (e : Env) (L : List Ptr) : Env := L.foldl (fun e q => envRmAdd e (some q) none) e

theorem releaseAll_same (L : List Ptr) : ∀ e : Env, (releaseAll e L).mem = e.mem ∧
    (releaseAll e L).environ = e.environ ∧ (releaseAll e L).next = e.next := by
  induction L with
  | nil => intro e; exact ⟨rfl, rfl, rfl⟩
  | cons q L ih => intro e; exact ih (envRmAdd e (some q) none)

theorem releaseAll_live (L : List Ptr) : ∀ {e : Env}, e.live.Nodup → (releaseAll e L).live.Nodup ∧
    ∀ p, p ∈ (releaseAll e L).live ↔ p ∈ e.live ∧ p ∉ L := by
  induction L with
  | nil => intro e h; exact ⟨h, fun p => by simp [releaseAll]⟩
  | cons q L ih =>
    intro e h
    have h' := nodup_live_envRmAdd e (some q) none h nofun
    obtain ⟨hn, hm⟩ := ih h'
    refine ⟨hn, fun p => (hm p).trans ?_⟩
    rw [mem_live_envRmAdd e _ _ h]
    simp only [ne_eq, Option.some.injEq, reduceCtorEq, or_false, List.mem_cons, not_or, and_assoc]

theorem releaseAll_freed (L : List Ptr) : ∀ {e : Env}, e.live.Nodup → ∀ p,
    p ∈ (releaseAll e L).freed ↔ p ∈ e.freed ∨ p ∈ e.live ∧ p ∈ L := by
  induction L with
  | nil => intro e _ p; simp [releaseAll]
  | cons q L ih =>
    intro e h p
    have h' := nodup_live_envRmAdd e (some q) none h nofun
    show p ∈ (releaseAll (envRmAdd e (some q) none) L).freed ↔ _
    rw [ih h' p, mem_freed_envRmAdd, mem_live_envRmAdd e _ _ h]
    by_cases hq : p = q
    · subst hq; simp
    · simp [hq]

theorem unsetLoop_eq {n : Str} (hn : IsName n) : ∀ {L : List Ptr} {e : Env}, e.live.Nodup →
    (∀ q ∈ L, q ∉ e.freed) → (∀ q ∈ L, q ∈ e.live → L.count q = 1) → unsetLoop n (nameLen n) e L =
      some (releaseAll e (L.filter (Names e.mem n)), unset e.mem n L)
  | [], _, _, _, _ => rfl
  | q :: L, e, hd, hf, hc => by
    have hq : e.read q = some (e.mem q) := if_neg (hf q List.mem_cons_self)
    have hc' : ∀ r ∈ L, r ∈ e.live → r ≠ q ∧ L.count r = 1 := by
      intro r hr hl
      have h1 := hc r (List.mem_cons_of_mem q hr) hl
      have h2 := List.one_le_count_iff.mpr hr
      rw [List.count_cons] at h1
      by_cases hrq : q = r
      · subst hrq; simp at h1; omega
      · exact ⟨fun e => hrq e.symm, by simpa [hrq] using h1⟩
    unfold unsetLoop unset
    rw [hq]
    by_cases hb : Names e.mem n q = true
    · have hbind := (bindsAt_iff hn (e.mem q)).mpr (beq_iff_eq.mp hb)
      have ih := unsetLoop_eq hn (L := L) (nodup_live_envRmAdd e (some q) none hd nofun) (fun r hr hm => ?_)
        (fun r hr hl => ?_)
      · simp only [Option.bind_eq_bind, Option.bind_some, hbind, if_true, ih, envRmAdd_mem,
          List.filter_cons_of_pos hb, unset]
        rw [List.filter_cons_of_neg (by simp [hb])]
        rfl
      · rcases (mem_freed_envRmAdd e _ _ r).mp hm with h | ⟨h, hl⟩
        · exact hf r (List.mem_cons_of_mem q hr) h
        · exact (hc' r hr hl).1 (Option.some.inj h)
      · rcases (mem_live_envRmAdd e _ _ hd r).mp hl with h | h
        · exact (hc' r hr h.1).2
        · cases h
    · have hbind : ¬ bindsAt n (e.mem q) (nameLen n) = true := fun hh => hb (beq_iff_eq.mpr ((bindsAt_iff hn _).mp hh))
      have ih := unsetLoop_eq hn (L := L) hd (fun r hr => hf r (List.mem_cons_of_mem q hr)) fun r hr hl => (hc' r hr hl).2
      simp only [Option.bind_eq_bind, Option.bind_some, hbind, Bool.false_eq_true, if_false, ih,
        List.filter_cons_of_neg hb, unset]
      rw [List.filter_cons_of_pos (by simp [hb])]

/-! ## The invariant -/

structure Env.Ok (e : Env) : Prop where
  live_nodup : e.live.Nodup
  live_lt : ∀ p ∈ e.live, ∃ k < e.next, p = .owned k
  live_once : ∀ p ∈ e.live, e.entries.count p = 1
  entries_live : ∀ k, .owned k ∈ e.entries → .owned k ∈ e.live
  not_freed : ∀ p ∈ e.live, p ∉ e.freed
  freed_lt : ∀ p ∈ e.freed, ∃ k < e.next, p = .owned k
  lt : ∀ k < e.next, .owned k ∈ e.freed ∨ .owned k ∈ e.live
  named : ∀ k < e.next, ∃ n, nameOf (e.mem (.owned k)) = some n

namespace Env.Ok

variable {e : Env} (h : e.Ok)
include h

theorem readable {q : Ptr} (hq : q ∈ e.entries) : q ∉ e.freed := by
  intro hf
  obtain ⟨k, -, rfl⟩ := h.freed_lt q hf
  exact h.not_freed _ (h.entries_live k hq) hf

theorem caller_not_live (n : Nat) : .caller n ∉ e.live := fun hl => by
  obtain ⟨k, -, hk⟩ := h.live_lt _ hl
  cases hk

theorem caller_not_freed (n : Nat) : .caller n ∉ e.freed := fun hf => by
  obtain ⟨k, -, hk⟩ := h.freed_lt _ hf
  cases hk

theorem next_not_live : .owned e.next ∉ e.live := fun hl => by
  obtain ⟨k, hk, hk'⟩ := h.live_lt _ hl
  cases hk'
  exact Nat.lt_irrefl _ hk

end Env.Ok

theorem Env.start_ok (mem : Ptr → Str) (env : List Nat) : (Env.start mem env).Ok where
  live_nodup := List.nodup_nil
  live_lt := nofun
  live_once := nofun
  entries_live k hk := by
    obtain ⟨n, -, hn⟩ := List.mem_map.mp hk
    cases hn
  not_freed := nofun
  freed_lt := nofun
  lt := nofun
  named := nofun

def putState (e : Env) (n : Str) (p : Ptr) (r : Option Ptr) : Env :=
  envRmAdd { e with environ := some (put e.mem n p e.entries) } (e.entries.find? (Names e.mem n)) r

theorem putenvAt_eq {e : Env} (hf : ∀ q ∈ e.entries, q ∉ e.freed) {s n : Str} (hs : nameOf s = some n) (p : Ptr)
    (r : Option Ptr) : putenvAt e p s (nameLen s) r = some (putState e n p r) := by
  unfold putenvAt putState
  rw [putLoop_eq hs hf]
  cases hfind : e.entries.find? (Names e.mem n) with
  | some tmp => rfl
  | none =>
    rw [put_of_find_none _ _ _ hfind]
    cases r with
    | some r => rfl
    | none =>
      show some _ = some _
      have hnone : ∀ l : List (Option Ptr), rmAdd l none none = (l, none) := by
        intro l
        induction l with
        | nil => rfl
        | cons slot l ih =>
          unfold rmAdd
          by_cases hslot : slot = none
          · rw [if_pos hslot, hslot]
          · rw [if_neg hslot, if_neg fun hc => hslot hc.1, ih]
      unfold envRmAdd
      rw [hnone]
      rfl

def Puts (e e' : Env) (p : Ptr) (r : Option Ptr) : Prop :=
  (∃ m, p = .caller m) ∧ r = none ∧ e'.next = e.next ∨ p = .owned e.next ∧ r = some p ∧ e'.next = e.next + 1

theorem Puts.fresh {e e' : Env} {p : Ptr} {r : Option Ptr} (hp : Puts e e' p r) (h : e.Ok) : p ∉ e.live := by
  rcases hp with ⟨⟨m, rfl⟩, -, -⟩ | ⟨rfl, -, -⟩
  · exact h.caller_not_live m
  · exact h.next_not_live

theorem Puts.next_le {e e' : Env} {p : Ptr} {r : Option Ptr} (hp : Puts e e' p r) : e.next ≤ e'.next := by
  rcases hp with ⟨-, -, hn⟩ | ⟨-, -, hn⟩
  · exact Nat.le_of_eq hn.symm
  · exact hn ▸ Nat.le_succ _

theorem putState_ok {e e' : Env} (h : e.Ok) (n : Str) {p : Ptr} {r : Option Ptr} (hp : Puts e e' p r)
    (hal : e'.alloced = e.alloced) (hen : e'.entries = e.entries) (hfr : e'.freed = e.freed)
    (hnamed : ∀ k < e'.next, ∃ n, nameOf (e'.mem (.owned k)) = some n) : (putState e' n p r).Ok := by
  have hl : e'.live = e.live := congrArg List.reduceOption hal
  have hlive : ∀ q, q ∈ (putState e' n p r).live ↔
      q ∈ e.live ∧ some q ≠ e.entries.find? (Names e'.mem n) ∨ some q = r := by
    intro q
    rw [← hl, ← hen]
    exact mem_live_envRmAdd { e' with environ := some (put e'.mem n p e'.entries) } _ r (hl ▸ h.live_nodup) q
  have hfreed : ∀ q, q ∈ (putState e' n p r).freed ↔
      q ∈ e.freed ∨ some q = e.entries.find? (Names e'.mem n) ∧ q ∈ e.live := by
    intro q
    rw [← hl, ← hen, ← hfr]
    exact mem_freed_envRmAdd { e' with environ := some (put e'.mem n p e'.entries) } _ r q
  have hentries : (putState e' n p r).entries = put e'.mem n p e.entries := by
    rw [← hen]; rfl
  have hcount := fun q => count_put e'.mem n p q e.entries
  have hr : ∀ q, some q = r → q = p ∧ p = .owned e.next ∧ e'.next = e.next + 1 := by
    intro q hq
    rcases hp with ⟨-, hr, -⟩ | ⟨h1, h2, h3⟩
    · rw [hr] at hq; cases hq
    · rw [h2] at hq; exact ⟨Option.some.inj hq, h1, h3⟩
  refine ⟨?_, fun q hq => ?_, fun q hq => ?_, fun k hk => ?_, fun q hq hf => ?_, fun q hq => ?_, fun k hk => ?_, hnamed⟩
  · refine nodup_live_envRmAdd _ _ r (hl ▸ h.live_nodup) fun q hq => ?_
    show q ∉ e'.live
    rw [hl, (hr q hq.symm).1]
    exact hp.fresh h
  · rcases (hlive q).mp hq with ⟨hq, -⟩ | hq
    · obtain ⟨k, hk, hk'⟩ := h.live_lt q hq
      exact ⟨k, Nat.lt_of_lt_of_le hk hp.next_le, hk'⟩
    · obtain ⟨rfl, ho, hn⟩ := hr q hq
      exact ⟨e.next, by show e.next < e'.next; omega, ho⟩
  · rw [hentries]
    have hc := hcount q
    rcases (hlive q).mp hq with ⟨hq, hne⟩ | hq
    · have hm : ¬ p = q := by rintro rfl; exact hp.fresh h hq
      rw [if_neg (Ne.symm hne), if_neg hm, h.live_once q hq] at hc
      exact hc
    · obtain ⟨rfl, ho, -⟩ := hr q hq
      have hnot : q ∉ e.entries := fun hm => hp.fresh h (ho ▸ h.entries_live e.next (ho ▸ hm))
      have hfind : ¬ e.entries.find? (Names e'.mem n) = some q := fun hf => hnot (List.mem_of_find?_eq_some hf)
      rw [if_neg hfind, if_pos rfl, List.count_eq_zero.mpr hnot] at hc
      exact hc
  · rw [hentries] at hk
    rw [hlive]
    by_cases hkp : Ptr.owned k = p
    · right
      rcases hp with ⟨⟨m, rfl⟩, -, -⟩ | ⟨-, hr', -⟩
      · cases hkp
      · rw [hr', hkp]
    · have hke := (mem_put e'.mem n p hk).resolve_left hkp
      have hkl := h.entries_live k hke
      refine Or.inl ⟨hkl, fun heq => ?_⟩
      -- the entry that gives way stood in the array once
      have hc := hcount (.owned k)
      have h1 := List.one_le_count_iff.mpr hk
      rw [if_pos heq.symm, if_neg (Ne.symm hkp), h.live_once _ hkl] at hc
      omega
  · rcases (hfreed q).mp hf with hf' | ⟨hf, hfl⟩
    · rcases (hlive q).mp hq with ⟨hq, -⟩ | hq
      · exact h.not_freed q hq hf'
      · obtain ⟨rfl, ho, -⟩ := hr q hq
        obtain ⟨k, hk, hk'⟩ := h.freed_lt q hf'
        rw [ho] at hk'
        cases hk'
        exact Nat.lt_irrefl _ hk
    · rcases (hlive q).mp hq with ⟨-, hne⟩ | hq
      · exact hne hf
      · exact hp.fresh h ((hr q hq).1 ▸ hfl)
  · have hlt : ∃ k < e.next, q = .owned k := by
      rcases (hfreed q).mp hq with hq | ⟨-, hq⟩
      · exact h.freed_lt q hq
      · exact h.live_lt q hq
    obtain ⟨k, hk, hk'⟩ := hlt
    exact ⟨k, Nat.lt_of_lt_of_le hk hp.next_le, hk'⟩
  · rw [hfreed, hlive]
    rcases Nat.lt_or_ge k e.next with hk' | hk'
    · rcases h.lt k hk' with hk | hk
      · exact Or.inl (Or.inl hk)
      · by_cases heq : some (Ptr.owned k) = e.entries.find? (Names e'.mem n)
        · exact Or.inl (Or.inr ⟨heq, hk⟩)
        · exact Or.inr (Or.inl ⟨hk, heq⟩)
    · right; right
      replace hk : k < e'.next := hk
      rcases hp with ⟨-, -, hn⟩ | ⟨ho, hr', hn⟩
      · omega
      · have : k = e.next := by omega
        rw [hr', ho, this]

theorem unset_ok {e : Env} (h : e.Ok) (n : Str) :
    ({ releaseAll e (e.entries.filter (Names e.mem n)) with environ := some (unset e.mem n e.entries) } : Env).Ok := by
  obtain ⟨hnodup, hlive⟩ := releaseAll_live (e.entries.filter (Names e.mem n)) h.live_nodup
  have hfreed := releaseAll_freed (e.entries.filter (Names e.mem n)) h.live_nodup
  obtain ⟨hmem, -, hnext⟩ := releaseAll_same (e.entries.filter (Names e.mem n)) e
  have hin : ∀ p ∈ e.live, p ∈ e.entries := fun p hp => List.one_le_count_iff.mp (Nat.le_of_eq (h.live_once p hp).symm)
  refine ⟨hnodup, fun p hp => ?_, fun p hp => ?_, fun k hk => ?_, fun p hp hf => ?_, fun p hp => ?_, fun k hk => ?_, ?_⟩
  · rw [hnext]; exact h.live_lt p ((hlive p).mp hp).1
  · obtain ⟨hp, hnot⟩ := (hlive p).mp hp
    have hn : ¬ Names e.mem n p = true := fun hn => hnot (List.mem_filter.mpr ⟨hin p hp, hn⟩)
    show (unset e.mem n e.entries).count p = 1
    rw [count_unset, if_neg hn, h.live_once p hp]
  · obtain ⟨hk, hn⟩ := List.mem_filter.mp hk
    refine (hlive _).mpr ⟨h.entries_live k hk, fun hm => ?_⟩
    rw [(List.mem_filter.mp hm).2] at hn
    cases hn
  · obtain ⟨hp, hnot⟩ := (hlive p).mp hp
    rcases (hfreed p).mp hf with hf | hf
    · exact h.not_freed p hp hf
    · exact hnot hf.2
  · rw [hnext]
    rcases (hfreed p).mp hp with hp | hp
    · exact h.freed_lt p hp
    · exact h.live_lt p hp.1
  · rw [hnext] at hk
    refine Or.imp (hfreed _).mpr (hlive _).mpr ?_
    rcases h.lt k hk with hk | hk
    · exact Or.inl (Or.inl hk)
    · by_cases hm : .owned k ∈ e.entries.filter (Names e.mem n)
      · exact Or.inl (Or.inr ⟨hk, hm⟩)
      · exact Or.inr ⟨hk, hm⟩
  · rw [hnext, hmem]; exact h.named

/-! ## The library's calls -/

theorem unsetenv_eq {e : Env} (h : e.Ok) (name : Str) : ∃ e' ret, unsetenv e name = some (e', ret) ∧ e'.Ok ∧
    e'.mem = e.mem ∧ e'.next = e.next ∧ e'.entries = if IsName name then unset e.mem name e.entries else e.entries := by
  unfold unsetenv
  by_cases hn : IsName name
  · rw [if_pos hn, if_neg (isName_iff.mp hn)]
    cases henv : e.environ with
    | none =>
      have hz : e.entries = [] := by unfold Env.entries; rw [henv]; rfl
      exact ⟨e, 0, rfl, h, rfl, rfl, by rw [hz]; rfl⟩
    | some env =>
      have hz : env = e.entries := by unfold Env.entries; rw [henv]; rfl
      have hloop := unsetLoop_eq hn h.live_nodup (fun q hq => h.readable hq) fun q _ hl => h.live_once q hl
      refine ⟨_, 0, ?_, unset_ok h name, (releaseAll_same _ e).1, (releaseAll_same _ e).2.2, rfl⟩
      simp only [hz, hloop, Option.bind_eq_bind, Option.bind_some]
  · rw [if_neg hn, if_pos (not_not.mp fun hc => hn (isName_iff.mpr hc))]
    exact ⟨e, -1, rfl, h, rfl, rfl, rfl⟩

def putString (mem : Ptr → Str) (p : Ptr) (L : List Ptr) : List Ptr :=
  match nameOf (mem p) with
  | some n => put mem n p L
  | none => if IsName (mem p) then unset mem (mem p) L else L

theorem nameOf_eq_none {s : Str} : nameOf s = none ↔ nameLen s = 0 ∨ nameLen s = s.length := by
  unfold nameOf nameLen
  simp only [List.length_eq_zero_iff]
  split
  · rename_i h; exact ⟨fun _ => h, fun _ => rfl⟩
  · rename_i h; exact ⟨nofun, fun h' => absurd h' h⟩

theorem putenv_eq {e : Env} (h : e.Ok) (m : Nat) : ∃ e' ret, putenv e (.caller m) = some (e', ret) ∧ e'.Ok ∧
    e'.mem = e.mem ∧ e'.next = e.next ∧ e'.entries = putString e.mem (.caller m) e.entries := by
  have hread : e.read (.caller m) = some (e.mem (.caller m)) := if_neg (h.caller_not_freed m)
  unfold putenv putString
  rw [hread]
  cases hs : nameOf (e.mem (.caller m)) with
  | none =>
    obtain ⟨e', ret, hu, hrest⟩ := unsetenv_eq h (e.mem (.caller m))
    refine ⟨e', ret, ?_, hrest⟩
    simp only [Option.bind_eq_bind, Option.bind_some, if_pos (nameOf_eq_none.mp hs), hu]
  | some n =>
    have hne : ¬ (nameLen (e.mem (.caller m)) = 0 ∨ nameLen (e.mem (.caller m)) = (e.mem (.caller m)).length) := by
      rw [← nameOf_eq_none, hs]; exact nofun
    refine ⟨putState e n (.caller m) none, 0, ?_, ?_, rfl, rfl, rfl⟩
    · simp only [Option.bind_eq_bind, Option.bind_some, if_neg hne, putenvAt_eq (fun q hq => h.readable hq) hs]
    · exact putState_ok h n (Or.inl ⟨⟨m, rfl⟩, rfl, rfl⟩) rfl rfl rfl h.named

theorem getenvLoop_some (e : Env) (name : Str) (l : Nat) : ∀ {L : List Ptr}, (∀ q ∈ L, q ∉ e.freed) →
    ∃ r, getenvLoop e name l L = some r
  | [], _ => ⟨none, rfl⟩
  | q :: L, h => by
    have hq : e.read q = some (e.mem q) := if_neg (h q List.mem_cons_self)
    obtain ⟨r, hr⟩ := getenvLoop_some e name l fun q' hq' => h q' (List.mem_cons_of_mem q hq')
    unfold getenvLoop
    rw [hq]
    by_cases hb : bindsAt name (e.mem q) l = true
    · exact ⟨some ((e.mem q).drop (l + 1)), by simp [hb]⟩
    · exact ⟨r, by simp [hb, hr]⟩

theorem getenv_some {e : Env} (h : e.Ok) (name : Str) : ∃ r, getenv e name = some r := by
  unfold getenv
  dsimp only
  split
  · exact ⟨none, rfl⟩
  · exact getenvLoop_some e name _ fun q hq => h.readable hq

theorem setenvNew_eq {e : Env} (h : e.Ok) {var : Str} (hn : IsName var) (value : Str) :
    ∃ e' ret, setenvNew e var value (nameLen var) = some (e', ret) ∧ e'.Ok ∧
      e'.mem = Function.update e.mem (.owned e.next) (var ++ '=' :: value) ∧
      e'.entries = put e'.mem var (.owned e.next) e.entries := by
  have hs : nameOf (var ++ '=' :: value) = some var := nameOf_eq_some.mpr ⟨hn.1, hn.2, value, rfl⟩
  have hl : nameLen (var ++ '=' :: value) = nameLen var := (nameLen_of_name hs).trans (nameLen_isName hn).symm
  let e' : Env := { e with mem := Function.update e.mem (.owned e.next) (var ++ '=' :: value), next := e.next + 1 }
  have hput := putenvAt_eq (e := e') (fun q hq => h.readable hq) hs (.owned e.next) (some (.owned e.next))
  rw [hl] at hput
  refine ⟨putState e' var (.owned e.next) (some (.owned e.next)), 0, ?_, ?_, rfl, rfl⟩
  · show (putenvAt e' (.owned e.next) (var ++ '=' :: value) (nameLen var) (some (.owned e.next))).bind _ = _
    rw [hput]
    rfl
  · refine putState_ok h var (Or.inr ⟨rfl, rfl, rfl⟩) rfl rfl rfl fun k hk => ?_
    show ∃ n, nameOf (Function.update e.mem (.owned e.next) (var ++ '=' :: value) (.owned k)) = some n
    by_cases hke : k = e.next
    · rw [hke, Function.update_self]; exact ⟨var, hs⟩
    · rw [Function.update_of_ne (fun heq => hke (Ptr.owned.inj heq))]
      exact h.named k (by replace hk : k < e.next + 1 := hk; omega)

theorem setenvNew_ok {e : Env} (h : e.Ok) {var : Str} (hn : IsName var) (value : Str) :
    ∃ e' ret, setenvNew e var value (nameLen var) = some (e', ret) ∧ e'.Ok := by
  obtain ⟨e', ret, hret, hok, -⟩ := setenvNew_eq h hn value
  exact ⟨e', ret, hret, hok⟩

theorem setenv_ok {e : Env} (h : e.Ok) (var value : Str) (overwrite : Bool) :
    ∃ e' ret, setenv e var value overwrite = some (e', ret) ∧ e'.Ok := by
  unfold setenv
  dsimp only
  by_cases hn : IsName var
  · rw [if_neg (isName_iff.mp hn)]
    cases overwrite with
    | true => exact setenvNew_ok h hn value
    | false =>
      obtain ⟨r, hr⟩ := getenv_some h var
      rw [if_neg Bool.false_ne_true, hr]
      cases r with
      | some old => exact ⟨e, 0, rfl, h⟩
      | none => exact setenvNew_ok h hn value
  · rw [if_pos (not_not.mp fun hc => hn (isName_iff.mpr hc))]
    exact ⟨e, -1, rfl, h⟩

theorem clearenv_ok {e : Env} (h : e.Ok) : (clearenv e).1.Ok := by
  show (releaseAll { e with environ := none } e.entries).Ok
  obtain ⟨hnodup, hlive⟩ := releaseAll_live e.entries (e := { e with environ := none }) h.live_nodup
  have hfreed := releaseAll_freed e.entries (e := { e with environ := none }) h.live_nodup
  obtain ⟨hmem, henv, hnext⟩ := releaseAll_same e.entries { e with environ := none }
  have hnone : ∀ p, p ∉ (releaseAll { e with environ := none } e.entries).live := fun p hp => by
    obtain ⟨hp, hnot⟩ := (hlive p).mp hp
    exact hnot (List.one_le_count_iff.mp (Nat.le_of_eq (h.live_once p hp).symm))
  have hempty : (releaseAll { e with environ := none } e.entries).entries = [] := by
    unfold Env.entries at henv ⊢
    rw [henv]; rfl
  refine ⟨hnodup, fun p hp => absurd hp (hnone p), fun p hp => absurd hp (hnone p), fun k hk => ?_,
    fun p hp => absurd hp (hnone p), fun p hp => ?_, fun k hk => Or.inl ?_, ?_⟩
  · rw [hempty] at hk; cases hk
  · rw [hnext]
    rcases (hfreed p).mp hp with hp | hp
    · exact h.freed_lt p hp
    · exact h.live_lt p hp.1
  · rw [hnext] at hk
    refine (hfreed _).mpr ((h.lt k hk).imp_right fun hl => ⟨hl, ?_⟩)
    exact List.one_le_count_iff.mp (Nat.le_of_eq (h.live_once _ hl).symm)
  · rw [hnext, hmem]; exact h.named

theorem envCall_ok {e : Env} (h : e.Ok) (c : EnvCall) : ∃ e', c.run e = some e' ∧ e'.Ok := by
  cases c with
  | setenv var value overwrite =>
    obtain ⟨e', ret, hs, hok⟩ := setenv_ok h var value overwrite
    exact ⟨e', by simp [EnvCall.run, hs], hok⟩
  | putenv s =>
    obtain ⟨e', ret, hs, hok, -⟩ := putenv_eq h s
    exact ⟨e', by simp [EnvCall.run, hs], hok⟩
  | unsetenv name =>
    obtain ⟨e', ret, hs, hok, -⟩ := unsetenv_eq h name
    exact ⟨e', by simp [EnvCall.run, hs], hok⟩
  | clearenv => exact ⟨(clearenv e).1, rfl, clearenv_ok h⟩

/-- **No call of the library reads a released string**, in any run, and the
invariant holds wherever the run stands. -/
theorem env_run_ok (mem : Ptr → Str) (env : List Nat) (l : List EnvCall) :
    ∃ e, Run.exec envStep (some (Env.start mem env)) l = some e ∧ e.Ok := by
  have hstep : ∀ (l : List EnvCall) (e : Env), e.Ok → ∃ e', Run.exec envStep (some e) l = some e' ∧ e'.Ok := by
    intro l
    induction l with
    | nil => exact fun e h => ⟨e, rfl, h⟩
    | cons c l ih =>
      intro e h
      obtain ⟨e', hrun, hok⟩ := envCall_ok h c
      obtain ⟨e'', hexec, hok'⟩ := ih e' hok
      refine ⟨e'', ?_, hok'⟩
      show Run.exec envStep (c.run e) l = some e''
      rw [hrun]
      exact hexec
  exact hstep l _ (Env.start_ok mem env)

end Iamroot
