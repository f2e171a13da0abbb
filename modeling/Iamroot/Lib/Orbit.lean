import Mathlib.Data.Set.Finite.Basic
import Mathlib.Data.Set.Finite.Lattice
import Mathlib.Data.Fintype.EquivFin

/-!
# Orbits of a step function

`orbit step a` is the sequence of the states that a deterministic machine goes
through from `a`, with `none` from where it stops on. A machine over finitely
many states stops unless it comes back to a state. Where a measure goes down
in every step but those out of a marked state, only the marked states have to
be watched.
-/

namespace Orbit

variable {α : Type*} (step : α → Option α)

def orbit (a : α) : Nat → Option α
  | 0 => some a
  | i + 1 => (orbit a i).bind step

variable {step} {a b : α}

theorem orbit_succ (a : α) (i : Nat) : orbit step a (i + 1) = (orbit step a i).bind step := rfl

theorem orbit_succ_of_some {i : Nat} (h : orbit step a i = some b) : orbit step a (i + 1) = step b := by
  rw [orbit_succ, h]
  rfl

theorem orbit_add {i : Nat} (h : orbit step a i = some b) : ∀ k, orbit step a (i + k) = orbit step b k
  | 0 => h
  | k + 1 => by
    rw [← Nat.add_assoc, orbit_succ, orbit_add h k]
    rfl

theorem orbit_succ' (h : step a = some b) (k : Nat) : orbit step a (k + 1) = orbit step b k := by
  have h1 : orbit step a 1 = some b := h
  rw [Nat.add_comm]
  exact orbit_add h1 k

theorem orbit_none_of_le {i j : Nat} (h : orbit step a i = none) (hij : i ≤ j) : orbit step a j = none := by
  induction hij with
  | refl => exact h
  | step _ ih =>
    rw [orbit_succ, ih]
    rfl

theorem orbit_stop (h : step a = none) (n : Nat) : orbit step a (n + 1) = none :=
  orbit_none_of_le (i := 1) h (Nat.succ_le_succ (Nat.zero_le n))

theorem orbit_last_unique {i j : Nat} {c : α} (hi : orbit step a i = some b) (hb : step b = none)
    (hj : orbit step a j = some c) (hc : step c = none) : b = c := by
  have hi' : orbit step a (i + 1) = none := (orbit_succ_of_some hi).trans hb
  have hj' : orbit step a (j + 1) = none := (orbit_succ_of_some hj).trans hc
  rcases Nat.lt_trichotomy i j with hlt | rfl | hlt
  · rw [orbit_none_of_le hi' hlt] at hj
    cases hj
  · exact Option.some.inj (hi.symm.trans hj)
  · rw [orbit_none_of_le hj' hlt] at hi
    cases hi

theorem orbit_some_of_le {i j : Nat} (h : orbit step a j ≠ none) (hij : i ≤ j) : orbit step a i ≠ none :=
  fun hi => h (orbit_none_of_le hi hij)

theorem orbit_inv_at {I : α → Prop} (h0 : I a) (hstep : ∀ i b c, orbit step a i = some b → I b → step b = some c → I c) :
    ∀ {i : Nat} {b : α}, orbit step a i = some b → I b
  | 0, b, h => by
    obtain rfl := Option.some.inj h
    exact h0
  | i + 1, b, h => by
    rw [orbit_succ, Option.bind_eq_some_iff] at h
    obtain ⟨c, hc, hcb⟩ := h
    exact hstep i c b hc (orbit_inv_at h0 hstep hc) hcb

theorem orbit_inv {I : α → Prop} (h0 : I a) (hstep : ∀ a b, I a → step a = some b → I b) {i : Nat} {b : α}
    (h : orbit step a i = some b) : I b :=
  orbit_inv_at h0 (fun _ b c _ => hstep b c) h

/-- A machine that comes back never stops. -/
theorem orbit_ne_none_of_repeat {i j : Nat} (hij : i < j) (hi : orbit step a i = some b) (hj : orbit step a j = some b) :
    ∀ n, orbit step a n ≠ none := by
  have hper : ∀ k, orbit step a (i + k) = orbit step a (j + k) := by
    intro k
    rw [orbit_add hi, orbit_add hj]
  intro n
  induction n using Nat.strong_induction_on with
  | _ n ih =>
    by_cases hn : n ≤ j
    · apply orbit_some_of_le _ hn
      rw [hj]
      nofun
    · have h := hper (n - j)
      have hj' : j + (n - j) = n := by omega
      rw [hj'] at h
      rw [← h]
      apply ih
      omega

/-- From where on no state is marked, the measure brings the machine to a stop. -/
theorem orbit_stops_of_unmarked {I mark : α → Prop} {m : α → Nat} (h0 : I a)
    (hstep : ∀ a b, I a → step a = some b → I b)
    (hm : ∀ a b, I a → ¬ mark a → step a = some b → m b < m a) (N : Nat)
    (hN : ∀ i b, N ≤ i → orbit step a i = some b → ¬ mark b) : ∃ n, orbit step a n = none := by
  by_contra hne
  push Not at hne
  have hb : ∀ k b, orbit step a (N + k) = some b → ∀ c, orbit step a N = some c → m b + k ≤ m c := by
    intro k
    induction k with
    | zero =>
      intro b hb c hc
      obtain rfl := Option.some.inj (hb.symm.trans hc)
      exact Nat.le_refl _
    | succ k ih =>
      intro b hb c hc
      obtain ⟨d, hd⟩ := Option.ne_none_iff_exists'.mp (hne (N + k))
      have hdb : step d = some b := by
        rw [← orbit_succ_of_some hd]
        exact hb
      have h1 := ih d hd c hc
      have h2 := hm d b (orbit_inv h0 hstep hd) (hN _ d (Nat.le_add_right _ _) hd) hdb
      omega
  obtain ⟨c, hc⟩ := Option.ne_none_iff_exists'.mp (hne N)
  obtain ⟨d, hd⟩ := Option.ne_none_iff_exists'.mp (hne (N + (m c + 1)))
  have := hb _ d hd c hc
  omega

/-- Over finitely many states the machine stops exactly when it comes back to no marked state. -/
theorem stops_iff {I mark : α → Prop} {m : α → Nat} (hfin : {b | I b}.Finite) (h0 : I a)
    (hstep : ∀ a b, I a → step a = some b → I b)
    (hm : ∀ a b, I a → ¬ mark a → step a = some b → m b < m a) :
    (∃ n, orbit step a n = none) ↔
      ∀ i j b, i < j → orbit step a i = some b → orbit step a j = some b → ¬ mark b := by
  constructor
  · rintro ⟨n, hn⟩ i j b hij hi hj _
    exact orbit_ne_none_of_repeat hij hi hj n hn
  · intro hrep
    by_contra hne
    push Not at hne
    -- the marked indexes are infinitely many, and their states are finitely many
    have hinf : {i | ∃ b, orbit step a i = some b ∧ mark b}.Infinite := by
      intro hf
      obtain ⟨N, hN⟩ := hf.bddAbove
      obtain ⟨n, hn⟩ := orbit_stops_of_unmarked h0 hstep hm (N + 1) (by
        intro i b hi hb hmk
        have := hN ⟨b, hb, hmk⟩
        omega)
      exact hne n hn
    have hmaps : Set.MapsTo (orbit step a) {i | ∃ b, orbit step a i = some b ∧ mark b} (some '' {b | I b}) := by
      rintro i ⟨b, hb, -⟩
      exact ⟨b, orbit_inv h0 hstep hb, hb.symm⟩
    obtain ⟨i, ⟨b, hb, hmk⟩, j, -, hij, he⟩ := hinf.exists_ne_map_eq_of_mapsTo hmaps (hfin.image some)
    rcases Nat.lt_or_gt_of_ne hij with hlt | hlt
    · exact hrep i j b hlt hb (he ▸ hb) hmk
    · exact hrep j i b hlt (he ▸ hb) hb hmk

end Orbit
