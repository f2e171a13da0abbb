import Mathlib.Data.List.Infix

/-!
# Texts of lines

A text is cut behind each newline: every line carries the one that ends it, and
only the last line may do without. A reader with a buffer takes a line in pieces
of at most the size of the buffer.
-/

namespace Lines

def newline : Char := '\n'

def lines : List Char → List (List Char)
  | [] => []
  | c :: s =>
    if c = newline then [c] :: lines s
    else
      match lines s with
      | [] => [[c]]
      | l :: ls => (c :: l) :: ls

/-- At most `n` characters, up to the newline that ends the line, and what is left. -/
def chunk : Nat → List Char → List Char × List Char
  | 0, s => ([], s)
  | _ + 1, [] => ([], [])
  | n + 1, c :: s => if c = newline then ([c], s) else (c :: (chunk n s).1, (chunk n s).2)

variable {l s : List Char} {n : Nat}

theorem lines_line (hl : newline ∉ l) (s : List Char) : lines (l ++ newline :: s) = (l ++ [newline]) :: lines s := by
  induction l with
  | nil => rfl
  | cons c l ih =>
    have hc : c ≠ newline := fun h => hl (h ▸ List.mem_cons_self)
    rw [List.cons_append, lines, if_neg hc, ih fun h => hl (List.mem_cons_of_mem c h)]
    rfl

theorem lines_last (hne : l ≠ []) (hl : newline ∉ l) : lines l = [l] := by
  induction l with
  | nil => exact absurd rfl hne
  | cons c l ih =>
    have hc : c ≠ newline := fun h => hl (h ▸ List.mem_cons_self)
    rw [lines, if_neg hc]
    by_cases h : l = []
    · rw [h]
      rfl
    · rw [ih h fun h => hl (List.mem_cons_of_mem c h)]

theorem cases_lines (s : List Char) : s = [] ∨ (s ≠ [] ∧ newline ∉ s) ∨ ∃ l t, newline ∉ l ∧ s = l ++ newline :: t := by
  induction s with
  | nil => exact .inl rfl
  | cons c s ih =>
    by_cases hc : c = newline
    · exact .inr (.inr ⟨[], s, by simp, by rw [hc]; rfl⟩)
    · rcases ih with rfl | ⟨-, hs⟩ | ⟨l, t, hl, rfl⟩
      · refine .inr (.inl ⟨by simp, ?_⟩)
        simpa using fun h => hc h.symm
      · refine .inr (.inl ⟨by simp, fun h => ?_⟩)
        rcases List.mem_cons.mp h with h | h
        · exact hc h.symm
        · exact hs h
      · refine .inr (.inr ⟨c :: l, t, fun h => ?_, rfl⟩)
        rcases List.mem_cons.mp h with h | h
        · exact hc h.symm
        · exact hl h

/-! ## Pieces -/

theorem chunk_append (n : Nat) (s : List Char) : (chunk n s).1 ++ (chunk n s).2 = s := by
  induction n generalizing s with
  | zero => rfl
  | succ n ih =>
    cases s with
    | nil => rfl
    | cons c s =>
      unfold chunk
      by_cases hc : c = newline
      · rw [if_pos hc]
        rfl
      · rw [if_neg hc]
        exact congrArg (c :: ·) (ih s)

theorem chunk_rest_lt (n : Nat) {s : List Char} (hs : s ≠ []) : (chunk (n + 1) s).2.length < s.length := by
  have happ := congrArg List.length (chunk_append (n + 1) s)
  rw [List.length_append] at happ
  have hpos : 0 < (chunk (n + 1) s).1.length := by
    cases s with
    | nil => exact absurd rfl hs
    | cons c s =>
      unfold chunk
      by_cases hc : c = newline
      · rw [if_pos hc]
        exact Nat.one_pos
      · rw [if_neg hc]
        exact Nat.succ_pos _
  omega

/-- A line that fits is taken whole. -/
theorem chunk_fits (hl : newline ∉ l) (hn : l.length < n) (s : List Char) :
    chunk n (l ++ newline :: s) = (l ++ [newline], s) := by
  induction l generalizing n with
  | nil =>
    cases n with
    | zero => cases hn
    | succ n => rfl
  | cons c l ih =>
    have hc : c ≠ newline := fun h => hl (h ▸ List.mem_cons_self)
    cases n with
    | zero => cases hn
    | succ n =>
      have ih := ih (n := n) (fun h => hl (List.mem_cons_of_mem c h)) (Nat.lt_of_succ_lt_succ hn)
      rw [List.cons_append, chunk, if_neg hc, ih]
      rfl

/-- Of a line that does not fit, as much is taken as there is room for. -/
theorem chunk_long (hl : newline ∉ l) (hn : n ≤ l.length) (s : List Char) : chunk n (l ++ s) = (l.take n, l.drop n ++ s) := by
  induction l generalizing n with
  | nil =>
    rw [Nat.le_zero.mp hn]
    rfl
  | cons c l ih =>
    have hc : c ≠ newline := fun h => hl (h ▸ List.mem_cons_self)
    cases n with
    | zero => rfl
    | succ n =>
      have ih := ih (n := n) (fun h => hl (List.mem_cons_of_mem c h)) (Nat.le_of_succ_le_succ hn)
      rw [List.cons_append, chunk, if_neg hc, ih]
      rfl

theorem chunk_end (hl : newline ∉ l) (hn : l.length ≤ n) : chunk n l = (l, []) := by
  induction l generalizing n with
  | nil => cases n <;> rfl
  | cons c l ih =>
    have hc : c ≠ newline := fun h => hl (h ▸ List.mem_cons_self)
    cases n with
    | zero => cases hn
    | succ n =>
      have ih := ih (n := n) (fun h => hl (List.mem_cons_of_mem c h)) (Nat.le_of_succ_le_succ hn)
      rw [chunk, if_neg hc, ih]

end Lines
