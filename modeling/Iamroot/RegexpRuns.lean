import Iamroot.RegexpCompile
import Iamroot.RegexpMatch

/-!
# What a regular expression finds

An expression compiled once and run on one text after the other tells of each whether
its tree matches somewhere in it, whatever counts the runs before have left, and with
the shortcuts of the compiler: the anchor, the first character and the literal that
must appear.
-/

namespace Iamroot.Regexp

/-! ## The whole program -/

section
variable {text : Str} {T : RegState → Prop} {r : Re} {i : Nat}

theorem Re.run (htext : nul ∉ text) : ∀ {r : Re}, r.Plain →
    (r.Sorted false → r.Run text T) ∧ (r.Sorted true → r.RunAlts text T) := by
  intro r
  induction r with
  | leaf l => exact fun h => ⟨fun _ => Leaf.run htext h.1, fun hs => by cases hs⟩
  | nothing => exact fun h => ⟨fun _ => nothing_run, fun hs => by cases hs⟩
  | cat r s ihr ihs =>
    exact fun h => ⟨fun hs => ((ihr h.1).1 hs.2.1).cat ((ihs h.2).1 hs.2.2), fun hs => by cases hs.1⟩
  | branch r ih => exact fun h => ⟨fun hs => (by cases hs.1), fun hs => ((ih h).1 hs.2).branch⟩
  | alt r s ihr ihs =>
    exact fun h => ⟨fun hs => (by cases hs.1), fun hs => ((ihs h.2).2 hs.2.2).alt ((ihr h.1).1 hs.2.1) hs.2.2⟩
  | group no r ih => exact fun h => ⟨fun hs => ((ih h.2).2 hs.2.2).group h.1, fun hs => by cases hs.1⟩
  | rep minimal min max l => exact fun h => ⟨fun _ => rep_run h.1 h.2.1 h.2.2.1 h.2.2.2.1, fun hs => by cases hs⟩
  | repx minimal min max count r ih =>
    intro h
    obtain ⟨rfl, hmin, hmax, rfl, hcaptures, hcounts, hplain⟩ := h
    exact ⟨fun hs => ((ih hplain).1 hs.2).repx hplain hcaptures hcounts hmin hmax, fun hs => by cases hs.1⟩

def Re.program (r : Re) : Program := regMagic :: (r.code (some 0) ++ [opEnd, 0])

theorem at_program (r : Re) : At r.program 1 (r.code (some 0)) ∧ At r.program (1 + (r.size + 0)) [opEnd, 0] := by
  have h : At r.program 1 (r.code (some 0) ++ [opEnd, 0]) := ⟨[], by simp [Re.program]⟩
  obtain ⟨hcode, hend⟩ := At.append h
  rw [length_code] at hend
  exact ⟨hcode, hend⟩

/-- A program of which only counts are other ones. -/
def Re.Used (r : Re) (P : Program) : Prop := Agree (r.CountAt 1) r.program P

theorem Re.program_run (htext : nul ∉ text) (hplain : r.Plain) (hsorted : r.Sorted true) (hi : i ≤ text.length) :
    RunAt text (fun st => r.Used st.program) r.program 1 i (∃ j, r.Match text i j) := by
  obtain ⟨hcode, hend⟩ := at_program r
  have hop := hend.cons.1
  have hfollows : Follows text (fun st => r.Used st.program) r r.program 1 (1 + (r.size + 0)) fun _ => True := by
    intro P' hag j hj
    have hend' : At P' (1 + (r.size + 0)) [opEnd, 0] := by
      refine hend.agree hag fun k hk ⟨c, hc, hkc⟩ => ?_
      have hlt := Re.counts_lt hc
      omega
    have hop' := hend'.cons.1
    refine .success (s := ⟨P', j⟩) (fun n => ?_) trivial hag
    have hne : 1 + (r.size + 0) ≠ 0 := by omega
    generalize 1 + (r.size + 0) = q at hop' hne ⊢
    simp +decide [regmatch, hop', hne]
  have hrun := ((Re.run htext hplain).2 hsorted r.program 1 0 (fun _ => True) (by decide) hcode
    (by rw [hop]; decide) hfollows i hi).1
  exact hrun.congr (by simp)

end

/-! ## Clearing the counts -/

section
variable {P Q A : Program} {S : Nat → Prop} {p q n : Nat} {r : Re}

theorem clearCounts_skip (hend : word Q p ≠ opEnd) (hrepx : ¬ (word Q p = opRepx ∨ word Q p = opRepxmin)) (n : Nat) :
    clearCounts (n + 1) p Q = clearCounts n (p + regopsize Q p) Q := by
  rw [clearCounts, if_neg hend, if_neg hrepx]

theorem clearCounts_two (hop : word Q p = opBranch ∨ word Q p = opNothing ∨ word Q p = opBack ∨ 1000 ≤ word Q p) (n : Nat) :
    clearCounts (n + 1) p Q = clearCounts n (p + 2) Q := by
  obtain h | h | h | h := hop
  · simp +decide [clearCounts, regopsize, h]
  · simp +decide [clearCounts, regopsize, h]
  · simp +decide [clearCounts, regopsize, h]
  · have hne : ∀ k : Int, k < 1000 → ¬ word Q p = k := fun k hk hw => by omega
    simp only [clearCounts, regopsize, hne opEnd (by decide), hne opRep (by decide), hne opRepmin (by decide),
      hne opRepx (by decide), hne opRepxmin (by decide), hne opAnyof (by decide), hne opAnybut (by decide),
      hne opExactly (by decide), or_self, if_false]

theorem At.strIntLen {w : List Int} (h : At Q p (w ++ [0])) (hw : w.contains 0 = false) : strIntLen Q p = w.length := by
  have hints : Regexp.strInts Q p = w := h.strInts hw
  rw [← hints]
  rfl

theorem Leaf.op_lt (l : Leaf) : l.op ≠ opEnd ∧ ¬ (l.op = opRepx ∨ l.op = opRepxmin) := by
  cases l with
  | set but _ =>
    change (if but then opAnybut else opAnyof) ≠ opEnd ∧
      ¬ ((if but then opAnybut else opAnyof) = opRepx ∨ (if but then opAnybut else opAnyof) = opRepxmin)
    cases but <;> decide
  | exactly _ =>
    change opExactly ≠ opEnd ∧ ¬ (opExactly = opRepx ∨ opExactly = opRepxmin)
    decide
  | _ => decide

theorem clearCounts_leaf {l : Leaf} (hl : l.words.contains 0 = false) {off : Int} (h : At Q p (l.op :: off :: l.opnd)) (n : Nat) :
    clearCounts (n + 1) p Q = clearCounts n (p + (2 + l.opnd.length)) Q := by
  have hop := h.cons.1
  have hopnd := h.cons.2.cons.2
  have hsize : regopsize Q p = 2 + l.opnd.length := by
    cases l with
    | set but ranges =>
      have hlen := At.strIntLen (w := Leaf.words (.set but ranges)) hopnd hl
      cases but <;> simp +decide [regopsize, hop, Leaf.op, hlen, Leaf.opnd] <;> omega
    | exactly cs =>
      have hlen := At.strIntLen (w := cs) hopnd hl
      simp +decide [regopsize, hop, Leaf.op, hlen, Leaf.opnd]
      omega
    | _ => simp +decide [regopsize, hop, Leaf.op, Leaf.opnd]
  rw [clearCounts_skip, hsize]
  · exact hop ▸ l.op_lt.1
  · exact hop ▸ l.op_lt.2

end

def Re.Holds (S : Nat → Prop) (r : Re) (p : Nat) : Prop := ∀ k, S k → p ≤ k → k < p + r.size → r.CountAt p k

def Upto (S : Nat → Prop) (P : Program) (p : Nat) (Q : Program) : Prop := Agree (fun k => S k ∧ p ≤ k) P Q

section
variable {P Q A : Program} {S : Nat → Prop} {p a n : Nat} {r s : Re}

theorem Re.Holds.inner (hS : s.Holds S p) (n : Nat) (hsize : n + r.size ≤ s.size)
    (h : ∀ c ∈ s.counts, n ≤ c → c < n + r.size → ∃ x ∈ r.counts, c = n + x) : r.Holds S (p + n) := by
  intro k hk hle hlt
  obtain ⟨c, hc, hkc⟩ := hS k hk (by omega) (by omega)
  obtain ⟨x, hx, hcx⟩ := h c hc (by omega) (by omega)
  exact ⟨x, hx, by omega⟩

theorem Re.Holds.gap (hS : s.Holds S p) (a n : Nat) (hsize : a + n ≤ s.size) (h : ∀ c ∈ s.counts, ¬ (a ≤ c ∧ c < a + n)) :
    ∀ k, p + a ≤ k → k < p + a + n → ¬ S k := by
  intro k hle hlt hk
  obtain ⟨c, hc, hkc⟩ := hS k hk (by omega) (by omega)
  exact h c hc (by omega)

theorem Upto.advance (h : Upto S P p Q) (hno : ∀ k, p ≤ k → k < p + n → ¬ S k) : Upto S P (p + n) Q := by
  refine h.mono fun k hk => ⟨hk.1, ?_⟩
  by_contra hlt
  exact hno k hk.2 (by omega) hk.1

theorem Upto.at (h : Upto S P p Q) (hat : At P p A) (hno : ∀ k, p ≤ k → k < p + A.length → ¬ S k) : At Q p A :=
  hat.agree h fun k hk hS => hno (p + k) (Nat.le_add_right _ _) (Nat.add_lt_add_left hk p) hS.1

def Re.Cleared (S : Nat → Prop) (r : Re) : Prop :=
  ∀ (d : Option Nat) (P Q : Program) (p : Nat), At P p (r.code d) → Upto S P p Q → r.Holds S p →
    ∃ m ≤ r.size, ∃ Q', Upto S P (p + r.size) Q' ∧ ∀ n, clearCounts (n + m) p Q = clearCounts n (p + r.size) Q'

theorem Re.Cleared.cat (hr : r.Cleared S) (hs : s.Cleared S) : (Re.cat r s).Cleared S := by
  intro d P Q p hat hup hS
  obtain ⟨hatr, hats⟩ := At.append (A := r.code (some 0)) hat
  rw [length_code] at hats
  have hSr : r.Holds S (p + 0) := hS.inner 0 (by simp only [Re.size]; omega) fun c hc _ hlt => by
    simp only [Re.counts, List.mem_append, List.mem_map] at hc
    obtain hc | ⟨x, hx, rfl⟩ := hc
    · exact ⟨c, hc, by omega⟩
    · omega
  have hSs : s.Holds S (p + r.size) := hS.inner r.size (by simp only [Re.size]; omega) fun c hc hle _ => by
    simp only [Re.counts, List.mem_append, List.mem_map] at hc
    obtain hc | ⟨x, hx, rfl⟩ := hc
    · have hlt := Re.counts_lt hc
      omega
    · exact ⟨x, hx, rfl⟩
  obtain ⟨m, hm, Q1, hup1, hclear1⟩ := hr _ _ _ _ hatr hup hSr
  obtain ⟨l, hl, Q2, hup2, hclear2⟩ := hs _ _ _ _ hats hup1 hSs
  refine ⟨l + m, by simp only [Re.size]; omega, Q2, ?_, fun n => ?_⟩
  · rwa [Re.size, ← Nat.add_assoc]
  · rw [← Nat.add_assoc, hclear1, hclear2, Re.size, Nat.add_assoc]

theorem leaf_cleared {l : Leaf} (hl : l.words.contains 0 = false) : (Re.leaf l).Cleared S := by
  intro d P Q p hat hup hS
  have hno := hS.gap 0 (Re.leaf l).size (by omega) (by simp [Re.counts])
  have hatq := hup.at hat (by rw [length_code]; exact hno)
  exact ⟨1, by simp [Re.size]; omega, Q, hup.advance hno, fun n => clearCounts_leaf hl hatq n⟩

theorem Upto.two (h : Upto S P p Q) {op off : Int} (hat : At P p (op :: off :: A)) (hno : ∀ k, p ≤ k → k < p + 2 → ¬ S k)
    (hop : op = opBranch ∨ op = opNothing ∨ op = opBack ∨ 1000 ≤ op) :
    Upto S P (p + 2) Q ∧ ∀ n, clearCounts (n + 1) p Q = clearCounts n (p + 2) Q := by
  have hatq : At Q p [op, off] := h.at (At.append (A := [op, off]) hat).1 hno
  exact ⟨h.advance hno, clearCounts_two (by rwa [hatq.cons.1])⟩

theorem nothing_cleared : Re.nothing.Cleared S := by
  intro d P Q p hat hup hS
  have hno := hS.gap 0 2 (by simp [Re.size]) (by simp [Re.counts])
  obtain ⟨hup2, hclear⟩ := hup.two hat hno (by decide)
  exact ⟨1, by simp [Re.size], Q, hup2, hclear⟩

theorem Re.Cleared.branch (hr : r.Cleared S) : (Re.branch r).Cleared S := by
  intro d P Q p hat hup hS
  have hno := hS.gap 0 2 (by simp only [Re.size]; omega) fun c hc => by
    simp only [Re.counts, List.mem_map] at hc
    omega
  obtain ⟨hup2, hclear⟩ := hup.two hat hno (by decide)
  have hSr : r.Holds S (p + 2) := hS.inner 2 (by simp only [Re.size]; omega) fun c hc _ _ => by
    simp only [Re.counts, List.mem_map] at hc
    obtain ⟨x, hx, rfl⟩ := hc
    exact ⟨x, hx, rfl⟩
  obtain ⟨m, hm, Q1, hup1, hclear1⟩ := hr d P Q (p + 2) hat.cons.2.cons.2 hup2 hSr
  refine ⟨m + 1, by simp only [Re.size]; omega, Q1, ?_, fun n => ?_⟩
  · rwa [Re.size, ← Nat.add_assoc]
  · rw [← Nat.add_assoc, hclear, hclear1, Re.size, ← Nat.add_assoc]

theorem Re.Cleared.alt (hr : r.Cleared S) (hs : s.Cleared S) : (Re.alt r s).Cleared S := by
  intro d P Q p hat hup hS
  have hno := hS.gap 0 2 (by simp only [Re.size]; omega) fun c hc => by
    simp only [Re.counts, List.mem_append, List.mem_map] at hc
    omega
  obtain ⟨hup2, hclear⟩ := hup.two hat hno (by decide)
  obtain ⟨hatr, hats⟩ := At.append (A := r.code (d.map (s.size + ·))) hat.cons.2.cons.2
  have hplace : p + 1 + 1 + (r.code (d.map (s.size + ·))).length = p + 2 + r.size := by rw [length_code]
  rw [hplace] at hats
  have hSr : r.Holds S (p + 2) := hS.inner 2 (by simp only [Re.size]; omega) fun c hc _ hlt => by
    simp only [Re.counts, List.mem_append, List.mem_map] at hc
    obtain ⟨x, hx, rfl⟩ | ⟨x, hx, rfl⟩ := hc
    · exact ⟨x, hx, rfl⟩
    · omega
  have hSs : s.Holds S (p + (2 + r.size)) := hS.inner (2 + r.size) (by simp only [Re.size]; omega) fun c hc hle _ => by
    simp only [Re.counts, List.mem_append, List.mem_map] at hc
    obtain ⟨x, hx, rfl⟩ | ⟨x, hx, rfl⟩ := hc
    · have hlt := Re.counts_lt hx
      omega
    · exact ⟨x, hx, by omega⟩
  obtain ⟨m, hm, Q1, hup1, hclear1⟩ := hr _ P Q (p + 2) hatr hup2 hSr
  obtain ⟨l, hl, Q2, hup3, hclear2⟩ := hs _ _ _ _ hats hup1 (by rwa [← Nat.add_assoc] at hSs)
  have hend : p + (Re.alt r s).size = p + 2 + r.size + s.size := by
    simp only [Re.size]
    omega
  refine ⟨l + m + 1, by simp only [Re.size]; omega, Q2, hend ▸ hup3, fun n => ?_⟩
  rw [← Nat.add_assoc, ← Nat.add_assoc, hclear, hclear1, hclear2, hend]

theorem Re.Cleared.group {no : Int} (hno : -1 ≤ no) (hr : r.Cleared S) : (Re.group no r).Cleared S := by
  intro d P Q p hat hup hS
  have hfront := hS.gap 0 2 (by simp only [Re.size]; omega) fun c hc => by
    simp only [Re.counts, List.mem_map] at hc
    omega
  obtain ⟨hup2, hclear⟩ := hup.two hat hfront (by change _ ∨ _ ∨ _ ∨ 1000 ≤ 1001 + no; omega)
  obtain ⟨hatr, hatc⟩ := At.append (A := r.code (some 0)) hat.cons.2.cons.2
  have hplace : p + 1 + 1 + (r.code (some 0)).length = p + 2 + r.size := by rw [length_code]
  rw [hplace] at hatc
  have hSr : r.Holds S (p + 2) := hS.inner 2 (by simp only [Re.size]; omega) fun c hc _ _ => by
    simp only [Re.counts, List.mem_map] at hc
    obtain ⟨x, hx, rfl⟩ := hc
    exact ⟨x, hx, rfl⟩
  obtain ⟨m, hm, Q1, hup1, hclear1⟩ := hr _ P Q (p + 2) hatr hup2 hSr
  have hback := hS.gap (2 + r.size) 2 (by simp only [Re.size]; omega) fun c hc => by
    simp only [Re.counts, List.mem_map] at hc
    obtain ⟨x, hx, rfl⟩ := hc
    have hlt := Re.counts_lt hx
    omega
  obtain ⟨hup3, hclear2⟩ := hup1.two hatc (by rwa [Nat.add_assoc p 2]) (by change _ ∨ _ ∨ _ ∨ 1000 ≤ 2001 + no; omega)
  have hend : p + (Re.group no r).size = p + 2 + r.size + 2 := by
    simp only [Re.size]
    omega
  refine ⟨1 + m + 1, by simp only [Re.size]; omega, Q1, hend ▸ hup3, fun n => ?_⟩
  rw [← Nat.add_assoc, ← Nat.add_assoc, hclear, hclear1, hclear2, hend]

theorem regopsize_five (h : word Q p = opRep ∨ word Q p = opRepmin ∨ word Q p = opRepx ∨ word Q p = opRepxmin) :
    regopsize Q p = 5 := by
  rw [regopsize, if_pos h]

theorem rep_cleared {minimal : Bool} {min max : Int} {l : Leaf} (hl : l.words.contains 0 = false) :
    (Re.rep minimal min max l).Cleared S := by
  intro d P Q p hat hup hS
  have hno := hS.gap 0 (Re.rep minimal min max l).size (by omega) (by simp [Re.counts])
  have hatq := hup.at hat (by rw [length_code]; exact hno)
  have hop : word Q p = opRep ∨ word Q p = opRepmin := by
    rw [hatq.cons.1]
    cases minimal <;> decide
  have hend : word Q p ≠ opEnd ∧ ¬ (word Q p = opRepx ∨ word Q p = opRepxmin) := by
    obtain h | h := hop <;> rw [h] <;> decide
  have hleaf := clearCounts_leaf hl hatq.cons.2.cons.2.cons.2.cons.2.cons.2
  refine ⟨1 + 1, by simp [Re.size]; omega, Q, hup.advance hno, fun n => ?_⟩
  rw [← Nat.add_assoc, clearCounts_skip hend.1 hend.2, regopsize_five (hop.imp id .inl), hleaf]
  have hsize : p + 1 + 1 + 1 + 1 + 1 + (2 + l.opnd.length) = p + (Re.rep minimal min max l).size := by
    simp only [Re.size]
    omega
  rw [hsize]

theorem Re.Cleared.repx {min max : Int} (hr : r.Cleared S) : (Re.repx false min max 0 r).Cleared S := by
  intro d P Q p hat hup hS
  have hargs : At P (p + 5) (r.code (some 0) ++ [opBack, ((5 + r.size : Nat) : Int)]) :=
    hat.cons.2.cons.2.cons.2.cons.2.cons.2
  obtain ⟨hatr, hatb⟩ := At.append hargs
  rw [length_code] at hatb
  have hcounts : ∀ c ∈ (Re.repx false min max 0 r).counts, c = 4 ∨ ∃ x ∈ r.counts, c = 5 + x := by
    intro c hc
    simp only [Re.counts, List.mem_cons, List.mem_map] at hc
    obtain h | ⟨x, hx, h⟩ := hc
    · exact .inl h
    · exact .inr ⟨x, hx, h.symm⟩
  have hfront := hS.gap 0 4 (by simp only [Re.size]; omega) fun c hc => by
    obtain rfl | ⟨x, hx, rfl⟩ := hcounts c hc <;> omega
  have hop : word Q p = opRepx := by
    have hatq := hup.at (At.append (A := [opRepx, Re.link (7 + r.size) d, max, min]) hat).1 hfront
    exact hatq.cons.1
  have hSr : r.Holds S (p + 5) := hS.inner 5 (by simp only [Re.size]; omega) fun c hc hle _ => by
    obtain rfl | ⟨x, hx, rfl⟩ := hcounts c hc
    · omega
    · exact ⟨x, hx, rfl⟩
  have hback := hS.gap (5 + r.size) 2 (by simp only [Re.size]; omega) fun c hc => by
    obtain rfl | ⟨x, hx, rfl⟩ := hcounts c hc
    · omega
    · have hlt := Re.counts_lt hx
      omega
  -- the way back shows that the count is in the program
  have hlen : p + 4 < Q.length := by
    have hatq : At Q (p + 5 + r.size) [opBack] :=
      (At.append (A := [opBack]) hatb).1.agree hup fun k hk hSk =>
        hback (p + 5 + r.size + k) (by omega) (by simp only [List.length_singleton] at hk; omega) hSk.1
    have hle := hatq.length_le
    simp only [List.length_singleton, List.length_drop] at hle
    omega
  have hset : Upto S P (p + 5) (Q.set (p + 4) 0) := by
    intro k hk
    by_cases hk4 : p + 4 = k
    · subst hk4
      have hget := List.prefix_iff_getElem?.mp hat 4 (by rw [length_code]; simp only [Re.size]; omega)
      rw [List.getElem?_drop] at hget
      rw [List.getElem?_set_self hlen, hget]
      rfl
    · rw [List.getElem?_set_ne hk4]
      refine hup k fun hSk => ?_
      by_cases hle : p + 5 ≤ k
      · exact hk ⟨hSk.1, hle⟩
      · exact hfront k (by omega) (by omega) hSk.1
  obtain ⟨m, hm, Q1, hup1, hclear1⟩ := hr _ P _ (p + 5) hatr hset hSr
  obtain ⟨hup2, hclear2⟩ := hup1.two hatb (by rwa [Nat.add_assoc p 5]) (by decide)
  have hend : p + (Re.repx false min max 0 r).size = p + 5 + r.size + 2 := by
    simp only [Re.size]
    omega
  have hstep : ∀ n, clearCounts (n + 1) p Q = clearCounts n (p + 5) (Q.set (p + 4) 0) := by
    intro n
    rw [clearCounts, regopsize_five (by rw [hop]; decide), if_neg (by rw [hop]; decide), if_pos (.inl hop)]
  refine ⟨1 + m + 1, by simp only [Re.size]; omega, Q1, hend ▸ hup2, fun n => ?_⟩
  rw [← Nat.add_assoc, ← Nat.add_assoc, hstep, hclear1, hclear2, hend]

theorem Re.cleared : ∀ {r : Re}, r.Plain → (∀ b, r.Sorted b → r.Cleared S) := by
  intro r
  induction r with
  | leaf l => exact fun h _ _ => leaf_cleared h.1
  | nothing => exact fun _ _ _ => nothing_cleared
  | cat r s ihr ihs => exact fun h _ hs => (ihr h.1 _ hs.2.1).cat (ihs h.2 _ hs.2.2)
  | branch r ih => exact fun h _ hs => (ih h _ hs.2).branch
  | alt r s ihr ihs => exact fun h _ hs => (ihr h.1 _ hs.2.1).alt (ihs h.2 _ hs.2.2)
  | group no r ih => exact fun h _ hs => (ih h.2 _ hs.2.2).group hs.2.1
  | rep minimal min max l => exact fun h _ _ => rep_cleared h.2.2.2.1
  | repx minimal min max count r ih =>
    intro h _ hs
    obtain ⟨rfl, _, _, rfl, _, _, hplain⟩ := h
    exact (ih hplain _ hs.2).repx

theorem Re.Sorted.counts_ge (hsorted : r.Sorted true) {c : Nat} (hc : c ∈ r.counts) : 2 ≤ c := by
  cases r with
  | branch r =>
    simp only [Re.counts, List.mem_map] at hc
    omega
  | alt r s =>
    simp only [Re.counts, List.mem_append, List.mem_map] at hc
    omega
  | _ => simp [Re.Sorted] at hsorted

theorem clearCounts_used (hplain : r.Plain) (hsorted : r.Sorted true) (hused : r.Used Q) :
    clearCounts Q.length 3 Q = r.program := by
  obtain ⟨hcode, hend⟩ := at_program r
  have hholds : r.Holds (r.CountAt 1) 1 := fun k hk _ _ => hk
  have hup : Upto (r.CountAt 1) r.program 1 Q := by
    refine Agree.mono hused fun k hk => ⟨hk, ?_⟩
    obtain ⟨c, _, rfl⟩ := hk
    omega
  obtain ⟨m, hm, Q1, hup1, hclear⟩ := r.cleared hplain true hsorted _ _ _ _ hcode hup hholds
  have hno : ∀ k, ¬ (r.CountAt 1 k ∧ 1 + r.size ≤ k) := by
    intro k ⟨⟨c, hc, hk⟩, hle⟩
    have hlt := Re.counts_lt hc
    omega
  have hsame : Q1 = r.program := Agree.eq hup1 hno
  have hendq : At Q (1 + (r.size + 0)) [opEnd, 0] := hend.agree hused fun k hk ⟨c, hc, hkc⟩ => by
    have hlt := Re.counts_lt hc
    omega
  have hlen : m ≤ Q.length := by
    have hle := hendq.length_le
    simp only [List.length_cons, List.length_nil, List.length_drop] at hle
    omega
  have hfirst : clearCounts (Q.length + 1) 1 Q = clearCounts Q.length 3 Q := by
    refine clearCounts_two (.inl ?_) _
    obtain ⟨A, hA⟩ := hsorted.first (some 0)
    have hat : At r.program 1 [opBranch] := (At.append (A := [opBranch]) (hA ▸ hcode)).1
    have hatq : At Q 1 [opBranch] := hat.agree hused fun k hk ⟨c, hc, hkc⟩ => by
      have hle := hsorted.counts_ge hc
      simp only [List.length_singleton] at hk
      omega
    exact hatq.cons.1
  have hdone : ∀ n, clearCounts n (1 + r.size) r.program = r.program := by
    intro n
    cases n with
    | zero => rfl
    | succ n => rw [clearCounts, if_pos (show word r.program (1 + r.size) = opEnd from hend.cons.1)]
  obtain ⟨l, hl⟩ : ∃ l, Q.length + 1 = m + l := Nat.exists_eq_add_of_le (hlen.trans (Nat.le_succ _))
  rw [← hfirst, hl, Nat.add_comm, hclear, hsame, hdone]

end

/-! ## Shortcuts -/

section
variable {text : Str} {T : RegState → Prop} {P : Program} {r : Re} {p d i j : Nat}

theorem Re.single (hsorted : r.Sorted true) (h : word r.program (regnext r.program 1) = opEnd) : ∃ s, r = .branch s := by
  obtain ⟨hcode, hend⟩ := at_program r
  cases r with
  | branch s => exact ⟨s, rfl⟩
  | alt r s =>
    have hnext : regnext (Re.alt r s).program 1 = 1 + (2 + r.size + 0) :=
      At.link (n := 2 + r.size) (d := 0) hcode (by decide) (by omega)
    obtain ⟨A, hA⟩ := hsorted.2.2.first (some 0)
    have hats := (At.append (A := r.code (some (s.size + 0))) hcode.cons.2.cons.2).2
    have hplace : 1 + 1 + 1 + (r.code (some (s.size + 0))).length = 1 + (2 + r.size + 0) := by
      rw [length_code]
      omega
    rw [hplace, hA, ← hnext] at hats
    rw [hats.cons.1] at h
    exact absurd h (by decide)
  | _ => simp [Re.Sorted] at hsorted

theorem Re.first_leaf (hop : word P p = opBol ∨ word P p = opExactly) : ∀ {r : Re} {d : Option Nat}, r.Sorted false → r.Plain →
    At P p (r.code d) → ∃ (l : Leaf) (d' : Option Nat), l.Plain ∧ At P p ((Re.leaf l).code d') ∧
      ∀ i j, r.Match text i j → ∃ k, l.ends text i = some k := by
  have hne : ∀ {k : Int} {A : Program}, At P p (k :: A) → k = opBol ∨ k = opExactly := fun h => h.cons.1 ▸ hop
  intro r
  induction r with
  | leaf l => exact fun _ hplain hat => ⟨l, _, hplain, hat, fun i j h => ⟨j, h⟩⟩
  | nothing => exact fun _ _ hat => absurd (hne hat) (by decide)
  | cat r s ihr ihs =>
    intro d hs hplain hat
    obtain ⟨l, d', hl, hatl, hends⟩ := ihr hs.2.1 hplain.1 (At.append (A := r.code (some 0)) hat).1
    exact ⟨l, d', hl, hatl, fun i j ⟨k, hk, _⟩ => hends i k hk⟩
  | branch r ih => exact fun hs => absurd hs.1 (by decide)
  | alt r s ihr ihs => exact fun hs => absurd hs.1 (by decide)
  | group no r ih =>
    intro d hs _ hat
    have hparen := hne hat
    have hno := hs.2.1
    change 1001 + no = 1 ∨ 1001 + no = 8 at hparen
    omega
  | rep minimal min max l =>
    intro d _ _ hat
    have hrep := hne hat
    cases minimal <;> exact absurd hrep (by decide)
  | repx minimal min max count r ih =>
    intro d _ _ hat
    have hrep := hne hat
    cases minimal <;> exact absurd hrep (by decide)

theorem Leaf.ends_bol {l : Leaf} (hop : l.op = opBol) {k : Nat} (h : l.ends text i = some k) : i = 0 := by
  cases l with
  | bol =>
    simp only [Leaf.ends] at h
    split at h
    · assumption
    · cases h
  | set but _ => cases but <;> simp +decide [Leaf.op] at hop
  | exactly _ => simp +decide [Leaf.op] at hop
  | _ => exact absurd hop (by decide)

theorem Leaf.ends_exactly {l : Leaf} (hop : l.op = opExactly) (hl : l.Plain) (hat : At P p (l.opnd)) {k : Nat}
    (h : l.ends text i = some k) : ((peek (text.drop i)).toNat : Int) = word P p := by
  cases l with
  | exactly cs =>
    simp only [Leaf.ends] at h
    split at h
    · rename_i hpre
      cases cs with
      | nil => exact absurd rfl hl.2
      | cons w ws =>
        have hw : word P p = w := hat.cons.1
        cases hdrop : text.drop i with
        | nil =>
          rw [hdrop] at hpre
          exact absurd hpre (by simp)
        | cons c s =>
          rw [hdrop, List.map_cons, List.cons_prefix_cons] at hpre
          rw [hw, hpre.1]
          rfl
    · cases h
  | set but _ => cases but <;> simp +decide [Leaf.op] at hop
  | _ => exact absurd hop (by decide)

/-! ## The literal that must appear -/

/-- What the walk keeps in mind appears in a text that the whole tree matches. -/
def Seen (text : Str) (whole : Prop) (P : Program) (longest len : Nat) : Prop :=
  longest = 0 ∨ ∃ cs, cs ≠ [] ∧ cs.length = len ∧ strInts P longest = cs ∧
    (whole → ∃ a, cs <+: (text.drop a).map fun c => (c.toNat : Int))

def Keeps (text : Str) (whole : Prop) (P : Program) (p : Nat) : Prop :=
  ∀ n longest len, Seen text whole P longest len →
    Seen text whole P (longestLoop P n p longest len).1 (longestLoop P n p longest len).2

variable {whole : Prop}

theorem keeps_zero : Keeps text whole P 0 := by
  intro n longest len h
  cases n with
  | zero => exact h
  | succ n => exact h

theorem Keeps.step (h : Keeps text whole P (regnext P p))
    (hop : word P p = opExactly → Seen text whole P (p + 2) (strIntLen P (p + 2))) : Keeps text whole P p := by
  intro n longest len hseen
  cases n with
  | zero => exact hseen
  | succ n =>
    rw [longestLoop]
    split
    · exact hseen
    · split
      · rename_i hex
        exact h n _ _ (hop hex.1)
      · exact h n _ _ hseen

theorem seen_leaf {l : Leaf} (hl : l.Plain) (hat : At P p l.opnd) (hop : l.op = opExactly)
    (hwhole : whole → ∃ i j, l.ends text i = some j) : Seen text whole P p (strIntLen P p) := by
  cases l with
  | exactly cs =>
    have hints : strInts P p = cs := At.strInts hat hl.1
    refine .inr ⟨cs, fun h => hl.2 (h ▸ rfl), (At.strIntLen hat hl.1).symm, hints, fun h => ?_⟩
    obtain ⟨i, j, hij⟩ := hwhole h
    simp only [Leaf.ends] at hij
    split at hij
    · exact ⟨i, ‹_›⟩
    · cases hij
  | set but _ => cases but <;> simp +decide [Leaf.op] at hop
  | _ => exact absurd hop (by decide)

/-- The walk over a tree: only literals that are in every match are in the chain. -/
theorem Re.keeps : ∀ {r : Re} {b : Bool}, r.Sorted b → r.Plain → ∀ {p d : Nat}, p ≠ 0 → At P p (r.code (some d)) →
    (whole → b = false → ∃ i j, r.Match text i j) → Keeps text whole P (p + (r.size + d)) → Keeps text whole P p := by
  intro r
  induction r with
  | leaf l =>
    intro b hs hplain p d hp hat hwhole hq
    obtain ⟨hop, hnext, hopnd⟩ := hat.leaf
    refine Keeps.step (hnext ▸ hq) fun hex => seen_leaf hplain hopnd (hop ▸ hex) fun h => hwhole h hs
  | nothing =>
    intro b hs hplain p d hp hat hwhole hq
    have hnext : regnext P p = p + (2 + d) := hat.link (by decide) (by decide)
    exact Keeps.step (hnext ▸ hq) fun hex => absurd (hat.cons.1.symm.trans hex) (by decide)
  | cat r s ihr ihs =>
    intro b hs hplain p d hp hat hwhole hq
    obtain ⟨hatr, hats⟩ := At.append (A := r.code (some 0)) hat
    rw [length_code] at hats
    have hend : p + r.size + (s.size + d) = p + ((Re.cat r s).size + d) := by
      simp only [Re.size]
      omega
    refine ihr hs.2.1 hplain.1 hp hatr (fun h _ => ?_) (ihs hs.2.2 hplain.2 (by omega) hats (fun h _ => ?_) (hend ▸ hq))
    · obtain ⟨i, j, k, hk, _⟩ := hwhole h hs.1
      exact ⟨i, k, hk⟩
    · obtain ⟨i, j, k, _, hk⟩ := hwhole h hs.1
      exact ⟨k, j, hk⟩
  | branch r ih =>
    intro b hs hplain p d hp hat hwhole hq
    have hnext : regnext P p = p + (2 + r.size + d) := hat.link (by decide) (by omega)
    exact Keeps.step (hnext ▸ hq) fun hex => absurd (hat.cons.1.symm.trans hex) (by decide)
  | alt r s ihr ihs =>
    intro b hs hplain p d hp hat hwhole hq
    have hnext : regnext P p = p + (2 + r.size + 0) := At.link (n := 2 + r.size) (d := 0) hat (by decide) (by omega)
    have hats := (At.append (A := r.code (some (s.size + d))) hat.cons.2.cons.2).2
    have hplace : p + 1 + 1 + (r.code (some (s.size + d))).length = p + (2 + r.size + 0) := by
      rw [length_code]
      omega
    rw [hplace] at hats
    have hend : p + (2 + r.size + 0) + (s.size + d) = p + ((Re.alt r s).size + d) := by
      simp only [Re.size]
      omega
    have hrest := ihs hs.2.2 hplain.2 (by omega) hats (fun _ h => by cases h) (hend ▸ hq)
    exact Keeps.step (hnext ▸ hrest) fun hex => absurd (hat.cons.1.symm.trans hex) (by decide)
  | group no r ih =>
    intro b hs hplain p d hp hat hwhole hq
    have hnext : regnext P p = p + (2 + 0) := At.link (n := 2) (d := 0) hat (paren_ne hs.2.1).1 (by omega)
    obtain ⟨hatr, hatc⟩ := At.append (A := r.code (some 0)) hat.cons.2.cons.2
    have hplace : p + 1 + 1 + (r.code (some 0)).length = p + (2 + 0) + (r.size + 0) := by
      rw [length_code]
      omega
    rw [hplace] at hatc
    have hclose : regnext P (p + (2 + 0) + (r.size + 0)) = p + (2 + 0) + (r.size + 0) + (2 + d) :=
      hatc.link (paren_ne hs.2.1).2 (by omega)
    have hend : p + (2 + 0) + (r.size + 0) + (2 + d) = p + ((Re.group no r).size + d) := by
      simp only [Re.size]
      omega
    have hno := hs.2.1
    have hafter : Keeps text whole P (p + (2 + 0) + (r.size + 0)) :=
      Keeps.step (by rwa [hclose, hend]) fun hex => by
        have heq := hatc.cons.1.symm.trans hex
        change 2001 + no = 8 at heq
        omega
    have hinner := ih hs.2.2 hplain.2 (by omega) hatr (fun _ h => by cases h) hafter
    refine Keeps.step (hnext ▸ hinner) fun hex => ?_
    have heq := hat.cons.1.symm.trans hex
    change 1001 + no = 8 at heq
    omega
  | rep minimal min max l =>
    intro b hs hplain p d hp hat hwhole hq
    have hnext := hat.link (minimal_ne minimal).1 (by omega)
    refine Keeps.step (hnext ▸ hq) fun hex => ?_
    have heq := hat.cons.1.symm.trans hex
    cases minimal <;> exact absurd heq (by decide)
  | repx minimal min max count r ih =>
    intro b hs hplain p d hp hat hwhole hq
    have hnext := hat.link (minimal_ne minimal).2 (by omega)
    refine Keeps.step (hnext ▸ hq) fun hex => ?_
    have heq := hat.cons.1.symm.trans hex
    cases minimal <;> exact absurd heq (by decide)

theorem mustAppear_of {cs : List Int} (hcs : cs ≠ []) : ∀ {s : Str} {a : Nat},
    cs <+: (s.drop a).map (fun c => (c.toNat : Int)) → mustAppear cs s = true
  | [], a, h => by simp at h; exact absurd h hcs
  | c :: s, 0, h => by
    cases cs with
    | nil => exact absurd rfl hcs
    | cons w ws =>
      have hfirst : (c.toNat : Int) = w := (List.cons_prefix_cons.mp h).1.symm
      have hpre : w :: ws <+: (c :: s).map fun c => (c.toNat : Int) := h
      rw [mustAppear, prefixCmp_eq, if_pos hpre]
      simp [hfirst]
  | c :: s, a + 1, h => by
    rw [mustAppear, mustAppear_of hcs (s := s) (a := a) h, Bool.or_true]

end

/-! ## Runs -/

/-- Where the tree of a compiled expression tells what the compiler has dug out. -/
structure Dug (R : Regex) (r : Re) : Prop where
  program : R.program = r.program
  sorted : r.Sorted true
  anch : R.reganch = true → word r.program 3 = opBol
  start : R.regstart ≠ 0 → word r.program 3 = opExactly ∧ R.regstart = word r.program 5
  must : R.regmust ≠ 0 → (R.regmust, R.regmlen) = longestLoop r.program r.program.length 3 0 0
  single : R.reganch = true ∨ R.regstart ≠ 0 ∨ R.regmust ≠ 0 → ∃ s, r = .branch s

theorem jimRegcomp_dug {exp : Str} {R : Regex} {t : Parse} (hR : jimRegcomp exp = .ok R) (ht : parse exp = .ok t) : Dug R t.re := by
  have h := reg_parse exp
  rw [ht] at h
  unfold jimRegcomp at hR
  generalize reg (5 * exp.length + 5) false ⟨exp, [regMagic], 0⟩ = x at h hR
  cases h with
  | ok hab =>
    obtain ⟨hsorted, rfl⟩ := hab
    simp only [bind, Except.bind] at hR
    have hprogram : regMagic :: (t.re.code (some 0) ++ [opEnd, 0]) = t.re.program := rfl
    rw [hprogram] at hR
    split at hR
    · cases hR
    · split at hR
      · rename_i hone
        have hsingle := Re.single hsorted hone
        cases hR
        refine ⟨rfl, hsorted, fun h => by simpa using h, fun h => ?_, fun h => ?_, fun _ => hsingle⟩
        · by_cases hex : word t.re.program 3 = opExactly
          · exact ⟨hex, if_pos hex⟩
          · exact absurd (if_neg hex) h
        · by_cases hsp : t.flags.spStart = true
          · simp only [if_pos hsp]
          · simp only [if_neg hsp] at h
            exact absurd rfl h
      · cases hR
        exact ⟨rfl, hsorted, fun h => (by cases h), fun h => absurd rfl h, fun h => absurd rfl h,
          fun h => h.elim (fun h => by cases h) fun h => h.elim (absurd rfl) (absurd rfl)⟩

section
variable {text : Str} {R : Regex} {r : Re} {i j : Nat}

/-- The literal that must appear does so where there is a match. -/
theorem Dug.mustAppear (h : Dug R r) (hplain : r.Plain) (hmust : R.regmust ≠ 0) (hmatch : r.Match text i j) :
    mustAppear ((r.program.drop R.regmust).take R.regmlen) text = true := by
  obtain ⟨hcode, hend⟩ := at_program r
  obtain ⟨s, rfl⟩ := h.single (.inr (.inr hmust))
  have hstop : Keeps text True (Re.branch s).program (1 + ((Re.branch s).size + 0)) := by
    have hnext : regnext (Re.branch s).program (1 + ((Re.branch s).size + 0)) = 0 := by
      have hoff := hend.cons.2.cons.1
      unfold regnext
      simp only [hoff, if_true]
    refine Keeps.step ?_ fun hex => absurd (hend.cons.1.symm.trans hex) (by decide)
    rw [hnext]
    exact keeps_zero
  have hplace : 1 + ((Re.branch s).size + 0) = 3 + (s.size + 0) := by
    simp only [Re.size]
    omega
  have hkeeps : Keeps text True (Re.branch s).program 3 :=
    Re.keeps h.sorted.2 hplain (by decide) hcode.cons.2.cons.2 (fun _ _ => ⟨i, j, hmatch⟩) (hplace ▸ hstop)
  have hseen := hkeeps (Re.branch s).program.length 0 0 (.inl rfl)
  rw [← h.must hmust] at hseen
  obtain hzero | ⟨cs, hcs, hlen, hints, happears⟩ := hseen
  · exact absurd hzero hmust
  · obtain ⟨a, ha⟩ := happears trivial
    have hpre : cs <+: (Re.branch s).program.drop R.regmust := hints ▸ List.takeWhile_prefix _
    have hmlen : cs.length = R.regmlen := hlen
    have htake : ((Re.branch s).program.drop R.regmust).take R.regmlen = cs := by
      rw [← hmlen]
      exact (List.prefix_iff_eq_take.mp hpre).symm
    rw [htake]
    exact mustAppear_of hcs ha

theorem Dug.anch_zero (h : Dug R r) (hplain : r.Plain) (hanch : R.reganch = true) (hmatch : r.Match text i j) : i = 0 := by
  obtain ⟨s, rfl⟩ := h.single (.inl hanch)
  have hop := h.anch hanch
  obtain ⟨l, d, hl, hat, hends⟩ := Re.first_leaf (.inl hop) h.sorted.2 hplain (at_program (Re.branch s)).1.cons.2.cons.2
  obtain ⟨k, hk⟩ := hends i j hmatch
  exact Leaf.ends_bol (hat.cons.1.symm.trans hop) hk

theorem Dug.start_char (h : Dug R r) (hplain : r.Plain) (hstart : R.regstart ≠ 0) (hmatch : r.Match text i j) :
    ((peek (text.drop i)).toNat : Int) = R.regstart := by
  obtain ⟨s, rfl⟩ := h.single (.inr (.inl hstart))
  obtain ⟨hop, hword⟩ := h.start hstart
  obtain ⟨l, d, hl, hat, hends⟩ := Re.first_leaf (.inr hop) h.sorted.2 hplain (at_program (Re.branch s)).1.cons.2.cons.2
  obtain ⟨k, hk⟩ := hends i j hmatch
  rw [hword]
  exact Leaf.ends_exactly (hat.cons.1.symm.trans hop) hl hat.cons.2.cons.2 hk

def Re.Finds (text : Str) (r : Re) : Prop := ∃ i ≤ text.length, ∃ j, r.Match text i j

/-- One attempt after the other decides whether one of them matches. -/
theorem regtries_run (htext : nul ∉ text) (hplain : r.Plain) (hsorted : r.Sorted true) {start : Int}
    (hstart : start ≠ 0 → ∀ i j, r.Match text i j → ((peek (text.drop i)).toNat : Int) = start) :
    ∀ (s : Str) (i : Nat), i ≤ text.length → text.drop i = s →
      Decides (fun st => r.Used st.program) (fun n => regtries text n start s i r.program)
        (∃ k, i ≤ k ∧ k ≤ text.length ∧ ∃ j, r.Match text k j) (·.program = r.program) := by
  intro s
  induction s with
  | nil =>
    intro i hi hdrop
    have hlen : i = text.length := by
      have hle := List.drop_eq_nil_iff.mp hdrop
      omega
    have hlast : (∃ j, r.Match text i j) ↔ ∃ k, i ≤ k ∧ k ≤ text.length ∧ ∃ j, r.Match text k j := by
      constructor
      · exact fun h => ⟨i, le_rfl, hi, h⟩
      · intro ⟨k, hik, hk, h⟩
        have heq : k = i := by omega
        exact heq ▸ h
    by_cases h0 : start = 0
    · refine ((Re.program_run htext hplain hsorted hi).congr_fun fun n => ?_).congr hlast
      rw [regtries, if_pos h0]
    · refine .fail (s := ⟨r.program, i⟩) (fun n => by rw [regtries, if_neg h0]) ?_ rfl
      rw [← hlast]
      intro ⟨j, hj⟩
      have hchar := hstart h0 i j hj
      rw [hdrop] at hchar
      exact h0 hchar.symm
  | cons c s ih =>
    intro i hi hdrop
    have hlt : i < text.length := by
      by_contra hge
      rw [List.drop_eq_nil_of_le (by omega)] at hdrop
      cases hdrop
    have hnext : text.drop (i + 1) = s := by rw [← List.drop_drop, hdrop]; rfl
    have hrest := ih (i + 1) (by omega) hnext
    have hsplit : (∃ j, r.Match text i j) ∨ (∃ k, i + 1 ≤ k ∧ k ≤ text.length ∧ ∃ j, r.Match text k j) ↔
        ∃ k, i ≤ k ∧ k ≤ text.length ∧ ∃ j, r.Match text k j := by
      constructor
      · intro h
        obtain h | ⟨k, hik, hk, h⟩ := h
        · exact ⟨i, le_rfl, hi, h⟩
        · exact ⟨k, by omega, hk, h⟩
      · intro ⟨k, hik, hk, h⟩
        by_cases heq : k = i
        · exact .inl (heq ▸ h)
        · exact .inr ⟨k, by omega, hk, h⟩
    by_cases h0 : start = 0 ∨ (c.toNat : Int) = start
    · have hboth := (Re.program_run htext hplain hsorted hi).onFail
        (k := fun n st => regtries text n start s (i + 1) st.program) (R := (·.program = r.program)) fun st hst _ => by
          rw [hst]
          exact hrest
      refine (hboth.congr_fun fun n => ?_).congr hsplit
      rw [regtries, if_pos h0]
    · rw [not_or] at h0
      have hno : ¬ ∃ j, r.Match text i j := by
        intro ⟨j, hj⟩
        have hchar := hstart h0.1 i j hj
        rw [hdrop] at hchar
        exact h0.2 hchar
      refine (hrest.congr_fun fun n => ?_).congr ?_
      · rw [regtries, if_neg (by rw [not_or]; exact h0)]
      · rw [← hsplit, or_iff_right hno]

/-- One run, whatever counts the runs before have left. -/
theorem jimRegexec_run (h : Dug R r) (hplain : r.Plain) (htext : nul ∉ text) {Q : Program} (hused : r.Used Q) :
    Decides (fun st => r.Used st.program) (fun n => jimRegexec n { R with program := Q } text) (r.Finds text)
      (fun st => r.Used st.program) := by
  have hclear := clearCounts_used hplain h.sorted hused
  have hback : ∀ st : RegState, st.program = r.program → r.Used st.program := fun st hst => by
    rw [hst]
    exact Agree.refl
  by_cases hmust : R.regmust ≠ 0 ∧ Regexp.mustAppear ((r.program.drop R.regmust).take R.regmlen) text = false
  · refine .fail (s := ⟨r.program, 0⟩) (fun n => by simp only [jimRegexec, hclear, if_pos hmust]) ?_ Agree.refl
    intro ⟨i, _, j, hij⟩
    rw [h.mustAppear hplain hmust.1 hij] at hmust
    exact absurd hmust.2 (by decide)
  · by_cases hanch : R.reganch = true
    · have hrun := (Re.program_run htext hplain h.sorted (Nat.zero_le _)).mono hback
      refine (hrun.congr_fun fun n => by simp only [jimRegexec, hclear, if_neg hmust, if_pos hanch]).congr ?_
      constructor
      · exact fun ⟨j, hj⟩ => ⟨0, Nat.zero_le _, j, hj⟩
      · intro ⟨i, _, j, hij⟩
        have hzero := h.anch_zero hplain hanch hij
        exact ⟨j, hzero ▸ hij⟩
    · have hrun := (regtries_run htext hplain h.sorted (fun h0 i j hij => h.start_char hplain h0 hij) text 0
        (Nat.zero_le _) rfl).mono hback
      refine (hrun.congr_fun fun n => by simp only [jimRegexec, hclear, if_neg hmust, if_neg hanch]).congr ?_
      exact ⟨fun ⟨k, _, hk, hm⟩ => ⟨k, hk, hm⟩, fun ⟨k, hk, hm⟩ => ⟨k, Nat.zero_le _, hk, hm⟩⟩

end

def jimRegexecs (fuel : Nat) : Regex → List Str → Option (List Bool)
  | _, [] => some []
  | R, text :: texts =>
    match jimRegexec fuel R text with
    | none => none
    | some (b, st) => (jimRegexecs fuel { R with program := st.program } texts).map (b :: ·)

theorem jimRegexecs_run {R : Regex} {r : Re} (h : Dug R r) (hplain : r.Plain) :
    ∀ (texts : List Str), (∀ text ∈ texts, nul ∉ text) → ∀ Q, r.Used Q →
      ∃ bs, List.Forall₂ (fun text b => b = true ↔ r.Finds text) texts bs ∧
        ∃ N, ∀ n, N ≤ n → jimRegexecs n { R with program := Q } texts = some bs := by
  intro texts
  induction texts with
  | nil => exact fun _ Q _ => ⟨[], .nil, 0, fun n _ => rfl⟩
  | cons text texts ih =>
    intro htexts Q hused
    obtain ⟨⟨b, st⟩, ⟨N, hN⟩, ho⟩ := jimRegexec_run h hplain (htexts text (List.mem_cons_self ..)) hused
    have hst : r.Used st.program := ho.elim (·.2.2) (·.2.2)
    obtain ⟨bs, hbs, N', hN'⟩ := ih (fun t ht => htexts t (List.mem_cons_of_mem _ ht)) st.program hst
    refine ⟨b :: bs, .cons ?_ hbs, max N N', fun n hn => ?_⟩
    · obtain ⟨hb, hf, _⟩ | ⟨hb, hf, _⟩ := ho
      · exact iff_of_true hb hf
      · exact iff_of_false (Bool.eq_false_iff.mp hb) hf
    · have hfirst := hN n (by omega)
      have hrest := hN' n (by omega)
      simp only at hfirst
      simp only [jimRegexecs, hfirst, hrest, Option.map_some]

/-- An expression compiled once tells of every text whether its tree matches somewhere. -/
theorem jimRegcomp_finds {exp : Str} {R : Regex} {t : Parse} (hR : jimRegcomp exp = .ok R) (ht : parse exp = .ok t)
    (hplain : t.re.Plain) (texts : List Str) (htexts : ∀ text ∈ texts, nul ∉ text) :
    ∃ bs, List.Forall₂ (fun text b => b = true ↔ t.re.Finds text) texts bs ∧
      ∃ N, ∀ n, N ≤ n → jimRegexecs n R texts = some bs := by
  have h := jimRegcomp_dug hR ht
  have hrun := jimRegexecs_run h hplain texts htexts R.program (by rw [h.program]; exact Agree.refl)
  exact hrun

theorem jimRegcomp_finds_twice :
    ∃ bs, List.Forall₂ (fun text b => b = true ↔ (Re.branch (.cat (.repx false 0 1 0 (.group 1 (.branch
        (.leaf (.exactly [97, 98]))))) (.leaf (.exactly [99])))).Finds text) ["xabc".toList, "ab".toList] bs ∧
      ∃ N, ∀ n, N ≤ n → jimRegexecs n ⟨1, 0, false, 23, 1, [-86061043, 6, 24, 12, 18, 1, 0, 0, 1002, 2, 6, 7, 8, 5, 97, 98, 0,
        2002, 2, 7, 16, 8, 4, 99, 0, 0, 0]⟩ ["xabc".toList, "ab".toList] = some bs := by
  have hR : jimRegcomp "(ab)?c".toList = .ok ⟨1, 0, false, 23, 1, [-86061043, 6, 24, 12, 18, 1, 0, 0, 1002, 2, 6, 7, 8, 5, 97,
      98, 0, 2002, 2, 7, 16, 8, 4, 99, 0, 0, 0]⟩ := by decide +kernel
  have ht : parse "(ab)?c".toList = .ok ⟨.branch (.cat (.repx false 0 1 0 (.group 1 (.branch (.leaf (.exactly [97, 98])))))
      (.leaf (.exactly [99]))), ⟨true, false, true⟩, 1, []⟩ := by decide +kernel
  exact jimRegcomp_finds hR ht (by simp +decide [Re.Plain, Leaf.Plain]) _ (by decide)

end Iamroot.Regexp
