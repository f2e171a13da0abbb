import Mathlib.Logic.Relation
import Mathlib.Data.List.Nodup

/-!
# Depth-first walks that record a node before its entries

A node that is recorded is not entered again, whether or not its own entries are
done. Such a walk goes through a graph with cycles, and leaves on the record what
was there and, once each, the nodes that it can come to without passing those.
-/

namespace DepthFirst

open Relation

section
variable {N : Type*} (next : N → List N)

inductive Enters : List N → List N → List N → Prop
  | nil (s : List N) : Enters [] s s
  | again {q : N} {l s s' : List N} : q ∈ s → Enters l s s' → Enters (q :: l) s s'
  | enter {q : N} {l s s' s'' : List N} : q ∉ s → Enters (next q) (s ++ [q]) s' → Enters l s' s'' → Enters (q :: l) s s''

def FreshStep (s : List N) (p q : N) : Prop := q ∈ next p ∧ q ∉ s

/-- The node can be reached from one of the nodes `l`, past none that is on the record. -/
def ReachedFrom (l s : List N) (q : N) : Prop := ∃ p ∈ l, p ∉ s ∧ ReflTransGen (FreshStep next s) p q

variable {next} {l l' s s' s'' : List N} {p q : N}

theorem ReachedFrom.not_mem (h : ReachedFrom next l s q) : q ∉ s := by
  obtain ⟨p, -, hp, h⟩ := h
  rcases ReflTransGen.cases_tail h with rfl | ⟨x, -, hx⟩
  · exact hp
  · exact hx.2

theorem ReachedFrom.mono (hl : ∀ x ∈ l, x ∈ l') (h : ReachedFrom next l s q) : ReachedFrom next l' s q := by
  obtain ⟨p, hp, h⟩ := h
  exact ⟨p, hl p hp, h⟩

/-- What can be reached past a longer record can be reached past a shorter one. -/
theorem ReachedFrom.shorter (hs : ∀ x ∈ s, x ∈ s') (h : ReachedFrom next l s' q) : ReachedFrom next l s q := by
  obtain ⟨p, hp, hps, h⟩ := h
  have hstep : FreshStep next s' ≤ FreshStep next s := fun _ b hab => ⟨hab.1, fun hm => hab.2 (hs b hm)⟩
  exact ⟨p, hp, fun hm => hps (hs p hm), ReflTransGen.mono hstep p q h⟩

theorem ReachedFrom.behind (hq : q ∉ s) (h : ReachedFrom next (next q) s p) : ReachedFrom next (q :: l) s p := by
  obtain ⟨x, hx, hxs, h⟩ := h
  exact ⟨q, List.mem_cons_self, hq, .head ⟨hx, hxs⟩ h⟩

/-- What is put on the record is new to it, and was reached. -/
theorem Enters.grows (h : Enters next l s s') :
    ∃ added, s' = s ++ added ∧ added.Nodup ∧ ∀ x ∈ added, ReachedFrom next l s x := by
  induction h with
  | nil s => exact ⟨[], by simp, .nil, by simp⟩
  | again _ _ ih =>
    obtain ⟨added, hs, hn, hr⟩ := ih
    exact ⟨added, hs, hn, fun x hx => (hr x hx).mono fun y hy => List.mem_cons_of_mem _ hy⟩
  | @enter q l s s' s'' hq _ _ ih ih' =>
    obtain ⟨added, rfl, hn, hr⟩ := ih
    obtain ⟨added', rfl, hn', hr'⟩ := ih'
    have hfirst : ∀ x ∈ added, x ∉ s ++ [q] := fun x hx => (hr x hx).not_mem
    have hsecond : ∀ x ∈ added', x ∉ s ++ [q] ++ added := fun x hx => (hr' x hx).not_mem
    refine ⟨q :: (added ++ added'), by simp, ?_, ?_⟩
    · refine List.nodup_cons.mpr ⟨?_, List.nodup_append.mpr ⟨hn, hn', ?_⟩⟩
      · rw [List.mem_append]
        rintro (hm | hm)
        · exact hfirst q hm (by simp)
        · exact hsecond q hm (by simp)
      · rintro x hx y hy rfl
        exact hsecond x hy (by simp [hx])
    · intro x hx
      rcases List.mem_cons.mp hx with rfl | hx
      · exact ⟨x, List.mem_cons_self, hq, .refl⟩
      rcases List.mem_append.mp hx with hx | hx
      · exact ReachedFrom.behind hq ((hr x hx).shorter fun y hy => List.mem_append_left _ hy)
      · refine ReachedFrom.mono (fun y hy => List.mem_cons_of_mem _ hy) ((hr' x hx).shorter ?_)
        intro y hy
        simp [hy]

theorem Enters.subset (h : Enters next l s s') {x : N} (hx : x ∈ s) : x ∈ s' := by
  obtain ⟨added, rfl, -⟩ := h.grows
  exact List.mem_append_left _ hx

/-- The nodes are recorded, and so are the entries of each one that is put on the record. -/
theorem Enters.closed (h : Enters next l s s') :
    (∀ x ∈ l, x ∈ s') ∧ ∀ x ∈ s', x ∉ s → ∀ y ∈ next x, y ∈ s' := by
  induction h with
  | nil s => exact ⟨by simp, fun x hx hns => absurd hx hns⟩
  | again hq h ih => exact ⟨List.forall_mem_cons.mpr ⟨h.subset hq, ih.1⟩, ih.2⟩
  | @enter q l s s' s'' hq h h' ih ih' =>
    refine ⟨List.forall_mem_cons.mpr ⟨h'.subset (h.subset (by simp)), ih'.1⟩, ?_⟩
    intro x hx hns y hy
    by_cases hxs : x ∈ s'
    · refine h'.subset ?_
      by_cases hxq : x = q
      · exact ih.1 y (hxq ▸ hy)
      · exact ih.2 x hxs (by simp [hns, hxq]) y hy
    · exact ih'.2 x hx hxs y hy

/-- The record after a walk is what was on it, and what can be reached past that. -/
theorem Enters.mem_iff (h : Enters next l s s') : q ∈ s' ↔ q ∈ s ∨ ReachedFrom next l s q := by
  constructor
  · intro hq
    obtain ⟨added, rfl, -, hr⟩ := h.grows
    exact (List.mem_append.mp hq).imp_right (hr q)
  · rintro (hq | ⟨p, hp, hps, hpq⟩)
    · exact h.subset hq
    · obtain ⟨hl, hc⟩ := h.closed
      induction hpq with
      | refl => exact hl p hp
      | tail hpx hx ih =>
        rename_i x y
        have hxs : x ∉ s := ReachedFrom.not_mem ⟨p, hp, hps, hpx⟩
        exact hc x ih hxs y hx.1

end

end DepthFirst
