import Mathlib.Data.List.Basic

/-!
# Strings in one buffer

A buffer is a row of cells, some of which were never written. Strings that end
with a terminator are laid one behind the other, each where the one before it
ends; what is written from there on leaves them as they are.
-/

namespace Arena

abbrev Cells (α : Type*) := Nat → Option α

section
variable {α : Type*}

def store (m : Cells α) (off : Nat) (s : List α) : Cells α := fun i =>
  if off ≤ i ∧ i < off + s.length then s[i - off]? else m i

/-- The cells from `i` on, and before `j`, hold nothing that is known. -/
def clobber (m : Cells α) (i j : Nat) : Cells α := fun k => if i ≤ k ∧ k < j then none else m k

structure StandsAt (z : α) (m : Cells α) (off : Nat) (s : List α) : Prop where
  clean : z ∉ s
  chars : ∀ i < s.length, m (off + i) = s[i]?
  ends : m (off + s.length) = some z

def Frame (m m' : Cells α) (off : Nat) : Prop := ∀ i < off, m' i = m i

/-- Strings that were laid before an offset, one behind the other. -/
structure Laid (z : α) (m : Cells α) (off : Nat) (ps : List (Nat × List α)) : Prop where
  holds : ∀ p ∈ ps, StandsAt z m p.1 p.2
  below : ∀ p ∈ ps, p.1 + p.2.length < off
  apart : ps.Pairwise fun p q => p.1 + p.2.length < q.1

section
variable [DecidableEq α] (z : α) (m : Cells α)

def read : Nat → Nat → Option (List α)
  | 0, _ => none
  | n + 1, i =>
    match m i with
    | none => none
    | some c => if c = z then some [] else (read n (i + 1)).map (c :: ·)

/-- The number of cells before a terminator, or all of them; each must have been written. -/
def strnlenAt : Nat → Nat → Option Nat
  | 0, _ => some 0
  | n + 1, i =>
    match m i with
    | none => none
    | some c => if c = z then some 0 else (strnlenAt n (i + 1)).map (· + 1)

end

variable {z : α} {m m' m'' : Cells α} {off i n : Nat} {s t : List α} {ps : List (Nat × List α)}

/-! ## What a write leaves -/

theorem store_below (h : i < off) : store m off s i = m i := if_neg (by omega)

theorem store_above (h : off + s.length ≤ i) : store m off s i = m i := if_neg (by omega)

theorem store_at (h : i < s.length) : store m off s (off + i) = s[i]? := by
  rw [store, if_pos (by omega), Nat.add_sub_cancel_left]

theorem Frame.refl (m : Cells α) (off : Nat) : Frame m m off := fun _ _ => rfl

theorem Frame.trans (h : Frame m m' off) (h' : Frame m' m'' off) : Frame m m'' off :=
  fun i hi => (h' i hi).trans (h i hi)

theorem frame_store (h : off ≤ i) : Frame m (store m i s) off := fun _ hk => store_below (by omega)

theorem frame_clobber {j : Nat} (h : off ≤ i) : Frame m (clobber m i j) off := fun k hk => if_neg (by omega)

theorem StandsAt.frame (h : StandsAt z m i s) (hf : Frame m m' off) (hi : i + s.length < off) : StandsAt z m' i s where
  clean := h.clean
  chars := fun k hk => (hf _ (by omega)).trans (h.chars k hk)
  ends := (hf _ hi).trans h.ends

theorem standsAt_store (hs : z ∉ s) : StandsAt z (store m off (s ++ z :: t)) off s where
  clean := hs
  chars := by
    intro k hk
    rw [store_at (by simp; omega), List.getElem?_append_left hk]
  ends := by
    rw [store_at (by simp), List.getElem?_append_right (Nat.le_refl _)]
    simp

theorem StandsAt.append (h : StandsAt z m off s) (ht : z ∉ t) : StandsAt z (store m (off + s.length) (t ++ [z])) off (s ++ t) where
  clean := by
    rw [List.mem_append, not_or]
    exact ⟨h.clean, ht⟩
  chars := by
    intro k hk
    rw [List.length_append] at hk
    by_cases hs : k < s.length
    · rw [store_below (by omega), h.chars k hs, List.getElem?_append_left hs]
    · have hk' : off + k = off + s.length + (k - s.length) := by omega
      rw [hk', store_at (by simp; omega), List.getElem?_append_left (by omega), List.getElem?_append_right (by omega)]
  ends := by
    rw [List.length_append, ← Nat.add_assoc, store_at (by simp), List.getElem?_append_right (Nat.le_refl _)]
    simp

theorem StandsAt.tail {c : α} (h : StandsAt z m off (c :: s)) : m off = some c ∧ c ≠ z ∧ StandsAt z m (off + 1) s := by
  obtain ⟨hc, hs⟩ := not_or.mp (fun h' => h.clean (List.mem_cons.mpr h'))
  refine ⟨h.chars 0 (by simp), Ne.symm hc, hs, fun k hk => ?_, ?_⟩
  · have hk' := h.chars (k + 1) (by simpa using hk)
    rwa [Nat.add_comm k, ← Nat.add_assoc, Nat.add_comm 1 k] at hk'
  · have he := h.ends
    rwa [List.length_cons, Nat.add_comm s.length, ← Nat.add_assoc] at he

/-! ## Strings one behind the other -/

theorem Laid.nil (m : Cells α) (off : Nat) : Laid z m off [] := ⟨by simp, by simp, .nil⟩

theorem Laid.frame (h : Laid z m off ps) (hf : Frame m m' off) : Laid z m' off ps :=
  ⟨fun p hp => (h.holds p hp).frame hf (h.below p hp), h.below, h.apart⟩

theorem Laid.mono (h : Laid z m off ps) (hi : off ≤ i) : Laid z m i ps :=
  ⟨h.holds, fun p hp => Nat.lt_of_lt_of_le (h.below p hp) hi, h.apart⟩

theorem Laid.snoc (h : Laid z m off ps) (hs : StandsAt z m off s) : Laid z m (off + (s.length + 1)) (ps ++ [(off, s)]) where
  holds := by
    intro p hp
    rcases List.mem_append.mp hp with hp | hp
    · exact h.holds p hp
    · rw [List.mem_singleton.mp hp]
      exact hs
  below := by
    intro p hp
    rcases List.mem_append.mp hp with hp | hp
    · have := h.below p hp
      omega
    · rw [List.mem_singleton.mp hp]
      simp
  apart := by
    refine List.pairwise_append.mpr ⟨h.apart, List.pairwise_singleton _ _, ?_⟩
    intro p hp q hq
    rw [List.mem_singleton.mp hq]
    exact h.below p hp

section
variable [DecidableEq α]

/-! ## What is read -/

theorem read_of_stands (h : StandsAt z m off s) (hn : s.length < n) : read z m n off = some s := by
  induction s generalizing n off with
  | nil =>
    obtain ⟨n, rfl⟩ := Nat.exists_eq_succ_of_ne_zero (Nat.ne_of_gt hn)
    have hz : m off = some z := h.ends
    rw [read, hz]
    exact if_pos rfl
  | cons c s ih =>
    obtain ⟨n, rfl⟩ := Nat.exists_eq_succ_of_ne_zero (Nat.ne_of_gt (Nat.zero_lt_of_lt hn))
    obtain ⟨h0, hc, htail⟩ := h.tail
    rw [read, h0]
    dsimp only
    rw [if_neg hc, ih htail (by simpa using hn)]
    rfl

theorem strnlenAt_of_stands (h : StandsAt z m off s) (hn : s.length < n) : strnlenAt z m n off = some s.length := by
  induction s generalizing n off with
  | nil =>
    obtain ⟨n, rfl⟩ := Nat.exists_eq_succ_of_ne_zero (Nat.ne_of_gt hn)
    have hz : m off = some z := h.ends
    rw [strnlenAt, hz]
    exact if_pos rfl
  | cons c s ih =>
    obtain ⟨n, rfl⟩ := Nat.exists_eq_succ_of_ne_zero (Nat.ne_of_gt (Nat.zero_lt_of_lt hn))
    obtain ⟨h0, hc, htail⟩ := h.tail
    rw [strnlenAt, h0]
    dsimp only
    rw [if_neg hc, ih htail (by simpa using hn)]
    rfl

end

end

/-! ## Programs on a buffer -/

/-- How a program ends: with a value, with an error, or with an access that has no defined behaviour. -/
inductive Made (ε σ α : Type) where
  | ok (a : α) (m : σ)
  | fail (e : ε) (m : σ)
  | fault

def Making (ε σ α : Type) : Type := σ → Made ε σ α

namespace Making
variable {ε σ α β τ : Type}

def bind (x : Making ε σ α) (f : α → Making ε σ β) : Making ε σ β := fun m =>
  match x m with
  | .ok a m => f a m
  | .fail e m => .fail e m
  | .fault => .fault

instance : Monad (Making ε σ) where
  pure a m := .ok a m
  bind := bind

def ofExcept : Except ε α → Making ε σ α
  | .ok a => fun m => .ok a m
  | .error e => fun m => .fail e m

def fault : Making ε σ α := fun _ => .fault

/-- The program has no access without a defined behaviour, and `Q` when it succeeds. -/
def Safe (x : Making ε σ α) (m : σ) (Q : α → σ → Prop) : Prop :=
  match x m with
  | .ok a m => Q a m
  | .fail _ _ => True
  | .fault => False

/-- With room, the program does what `T` tells, and leaves `P`; without, its behaviour is not defined. However it
ends, `K` holds of the buffer. -/
structure Does (x : Making ε σ α) (m : σ) (room : Prop) (T : Except ε τ) (K : σ → Prop) (P : τ → α → σ → Prop) : Prop where
  full : ¬ room → x m = .fault
  done : room → ∀ t, T = .ok t → ∃ a m', x m = .ok a m' ∧ K m' ∧ P t a m'
  stops : room → ∀ e, T = .error e → ∃ m', x m = .fail e m' ∧ K m'

theorem safe_iff_exists {x : Making ε σ α} {m : σ} {Q : α → σ → Prop} :
    Safe x m Q ↔ (∃ e m', x m = .fail e m') ∨ ∃ a m', x m = .ok a m' ∧ Q a m' := by
  unfold Safe
  cases x m with
  | ok a m' => simp
  | fail e m' => simp
  | fault => simp

variable {x : Making ε σ α} {f : α → Making ε σ β} {m : σ} {Q : β → σ → Prop} {room : Prop} {T : Except ε τ}
  {K : σ → Prop} {P : τ → α → σ → Prop} {R : τ → Prop}

theorem bind_ok {a : α} {m' : σ} (h : x m = .ok a m') : (x >>= f) m = f a m' := by
  show bind x f m = f a m'
  rw [bind, h]

theorem bind_fail {e : ε} {m' : σ} (h : x m = .fail e m') : (x >>= f) m = .fail e m' := by
  show bind x f m = .fail e m'
  rw [bind, h]

theorem bind_fault (h : x m = .fault) : (x >>= f) m = .fault := by
  show bind x f m = .fault
  rw [bind, h]

/-- The rule of sequence: it is safe to go on exactly when there is room, and what comes next is safe. -/
theorem Does.bind_iff (h : Does x m room T K P) (hf : ∀ t a m', T = .ok t → K m' → P t a m' → (Safe (f a) m' Q ↔ R t)) :
    Safe (x >>= f) m Q ↔ room ∧ ∀ t, T = .ok t → R t := by
  unfold Safe
  by_cases hr : room
  · cases hT : T with
    | error e =>
      obtain ⟨m', hx, -⟩ := h.stops hr e hT
      simp [bind_fail hx, hr]
    | ok t =>
      obtain ⟨a, m', hx, hk, hp⟩ := h.done hr t hT
      have hs := hf t a m' hT hk hp
      unfold Safe at hs
      simp [bind_ok hx, hr, hs]
  · simp [bind_fault (h.full hr), hr]

/-- Two programs in sequence do what is told of the two in sequence. -/
theorem Does.bind {ρ : Type} {U : τ → Except ε ρ} {Q : ρ → β → σ → Prop} (h : Does x m room T K P)
    (hf : ∀ t a m', T = .ok t → K m' → P t a m' → Does (f a) m' (R t) (U t) K Q) :
    Does (x >>= f) m (room ∧ ∀ t, T = .ok t → R t) (T >>= U) K Q := by
  by_cases hr : room
  · cases hT : T with
    | error e =>
      obtain ⟨m', hx, hk⟩ := h.stops hr e hT
      refine ⟨fun hn => absurd ⟨hr, by simp⟩ hn, fun _ u hu => ?_, fun _ e' he => ⟨m', ?_, hk⟩⟩
      · have hu' : Except.error e = Except.ok u := hu
        simp at hu'
      · have he' : Except.error e = Except.error e' := he
        rw [bind_fail hx, Except.error.inj he']
    | ok t =>
      obtain ⟨a, m', hx, hk, hp⟩ := h.done hr t hT
      have hs := hf t a m' hT hk hp
      refine ⟨fun hn => ?_, fun hn u hu => ?_, fun hn e he => ?_⟩
      · rw [bind_ok hx]
        exact hs.full fun hr' => hn ⟨hr, fun t' ht' => Except.ok.inj ht' ▸ hr'⟩
      · rw [bind_ok hx]
        exact hs.done (hn.2 t rfl) u hu
      · rw [bind_ok hx]
        exact hs.stops (hn.2 t rfl) e he
  · refine ⟨fun _ => bind_fault (h.full hr), fun hn => absurd hn.1 hr, fun hn => absurd hn.1 hr⟩

theorem Does.ret {a : α} {t : τ} (hr : room) (hk : K m) (hp : P t a m) :
    Does (pure a : Making ε σ α) m room (.ok t) K P where
  full h := absurd hr h
  done _ t' ht := ⟨a, m, rfl, hk, Except.ok.inj ht ▸ hp⟩
  stops _ e he := by simp at he

theorem Does.error {e : ε} (hr : room) (hk : K m) :
    Does (Making.ofExcept (.error e) : Making ε σ α) m room (.error e : Except ε τ) K P where
  full h := absurd hr h
  done _ t ht := by simp at ht
  stops _ e' he := ⟨m, by rw [← Except.error.inj he]; rfl, hk⟩

theorem Does.of_eq {y : Making ε σ α} {k : σ} (h : Does y k room T K P) (hx : x m = y k) : Does x m room T K P :=
  ⟨fun hr => hx.trans (h.full hr), fun hr t hT => hx ▸ h.done hr t hT, fun hr e hT => hx ▸ h.stops hr e hT⟩

theorem Does.bind_read {P' : τ → β → σ → Prop} (h : Does x m room T K P)
    (hf : ∀ t a m', T = .ok t → K m' → P t a m' → ∃ b, f a m' = .ok b m' ∧ P' t b m') : Does (x >>= f) m room T K P' where
  full hr := bind_fault (h.full hr)
  done hr t hT := by
    obtain ⟨a, m', hx, hk, hp⟩ := h.done hr t hT
    obtain ⟨b, hb, hp'⟩ := hf t a m' hT hk hp
    exact ⟨b, m', (bind_ok hx).trans hb, hk, hp'⟩
  stops hr e hT := by
    obtain ⟨m', hx, hk⟩ := h.stops hr e hT
    exact ⟨m', bind_fail hx, hk⟩

theorem Does.ofExcept (T : Except ε α) (hk : K m) :
    Does (Making.ofExcept T) m True T K fun t a m' => a = t ∧ m' = m where
  full h := absurd trivial h
  done _ t hT := ⟨t, m, by rw [hT]; rfl, hk, rfl, rfl⟩
  stops _ e hT := ⟨m, by rw [hT]; rfl, hk⟩

theorem Does.mono {P' : τ → α → σ → Prop} {room' : Prop} {K' : σ → Prop} (h : Does x m room T K P) (hr : room' ↔ room)
    (hk : ∀ m', K m' → K' m') (hp : ∀ t a m', T = .ok t → K m' → P t a m' → P' t a m') : Does x m room' T K' P' where
  full h' := h.full fun hr' => h' (hr.mpr hr')
  done h' t hT := by
    obtain ⟨a, m', hx, hk', hp'⟩ := h.done (hr.mp h') t hT
    exact ⟨a, m', hx, hk m' hk', hp t a m' hT hk' hp'⟩
  stops h' e hT := by
    obtain ⟨m', hx, hk'⟩ := h.stops (hr.mp h') e hT
    exact ⟨m', hx, hk m' hk'⟩

end Making

end Arena
