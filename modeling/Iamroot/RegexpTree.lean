import Iamroot.Regcomp

/-!
# What an expression is compiled to

The grammar of the expressions, as trees, and the layout of a tree as a program.
The compiler writes the layout of the tree that the grammar gives, and fails as the
grammar does.
-/

namespace Iamroot.Regexp

/-! ## Trees -/

inductive Re where
  | leaf (l : Leaf)
  | nothing
  /-- `r`, and then a piece. -/
  | cat (r s : Re)
  /-- The last branch, or the only one. -/
  | branch (r : Re)
  | alt (r s : Re)
  /-- In parentheses; -1 when they do not capture. -/
  | group (no : Int) (r : Re)
  | rep (minimal : Bool) (min max : Int) (l : Leaf)
  | repx (minimal : Bool) (min max count : Int) (r : Re)
  deriving DecidableEq

namespace Re

def size : Re → Nat
  | leaf l => 2 + l.opnd.length
  | nothing => 2
  | cat r s => r.size + s.size
  | branch r => 2 + r.size
  | alt r s => 2 + r.size + s.size
  | group _ r => 4 + r.size
  | rep _ _ _ l => 7 + l.opnd.length
  | repx _ _ _ _ r => 7 + r.size

/-- The link of a node of which the code that it belongs to ends `n` words further, when what comes next is `d` words
behind that; 0 as long as this is not known. -/
def link (n : Nat) : Option Nat → Int
  | none => 0
  | some d => ((n + d : Nat) : Int)

/-- The layout, where `d` tells how far behind it the program goes on. -/
def code : Re → Option Nat → Program
  | leaf l, d => l.op :: link (2 + l.opnd.length) d :: l.opnd
  | nothing, d => [opNothing, link 2 d]
  | cat r s, d => r.code (some 0) ++ s.code d
  | branch r, d => opBranch :: link (2 + r.size) d :: r.code d
  | alt r s, d => opBranch :: ((2 + r.size : Nat) : Int) :: (r.code (d.map (s.size + ·)) ++ s.code d)
  | group no r, d => (opOpen + no) :: 2 :: (r.code (some 0) ++ [opClose + no, link 2 d])
  | rep minimal min max l, d =>
    (if minimal then opRepmin else opRep) :: link (7 + l.opnd.length) d :: max :: min :: 0 :: l.op :: 0 :: l.opnd
  | repx minimal min max count r, d =>
    (if minimal then opRepxmin else opRepx) :: link (7 + r.size) d :: max :: min :: count ::
      (r.code (some 0) ++ [opBack, ((5 + r.size : Nat) : Int)])

/-- Alternatives, as long as only their branches are linked. -/
def partly : Re → Program
  | branch r => opBranch :: ((2 + r.size : Nat) : Int) :: r.code none
  | alt r s => opBranch :: ((2 + r.size : Nat) : Int) :: (r.code none ++ s.partly)
  | r => r.code none

def tail : Re → Nat
  | cat r s => r.size + s.tail
  | alt r s => 2 + r.size + s.tail
  | group _ r => 2 + r.size
  | _ => 0

/-- Alternatives when `alts` is true, and a chain of pieces when it is false. -/
def Sorted : Re → Bool → Prop
  | leaf _, alts => alts = false
  | nothing, alts => alts = false
  | cat r s, alts => alts = false ∧ r.Sorted false ∧ s.Sorted false
  | branch r, alts => alts = true ∧ r.Sorted false
  | alt r s, alts => alts = true ∧ r.Sorted false ∧ s.Sorted true
  | group no r, alts => alts = false ∧ -1 ≤ no ∧ r.Sorted true
  | rep _ _ _ _, alts => alts = false
  | repx _ _ _ _ r, alts => alts = false ∧ r.Sorted false

def addAlt : Re → Re → Re
  | branch r, b => alt r (branch b)
  | alt r s, b => alt r (s.addAlt b)
  | r, _ => r

def simple : Re → Option Leaf
  | leaf l => if l.flags.simple then some l else none
  | _ => none

def repeated (minimal : Bool) (min max : Int) (r : Re) : Re :=
  match r.simple with
  | some l => rep minimal min max l
  | none => repx minimal min max 0 r

end Re

/-! ## The grammar -/

structure Parse where
  re : Re
  flags : Flags
  re_nsub : Nat
  rest : Str
  deriving DecidableEq

mutual

def parseReg : Nat → Bool → Nat → Str → Compiled Parse
  | 0, _, _, _ => .error none
  | n + 1, paren, k, s => do
    let noncap := paren ∧ "?:".toList <+: s
    let b ← parseBranch n (if ¬ noncap ∧ paren then k + 1 else k) (if noncap then s.drop 2 else s)
    let a ← parseAlts n (.branch b.re) (Flags.orElse ⟨true, false, false⟩ b.flags) b.re_nsub b.rest
    if paren then
      if peek a.rest = ')' then
        .ok { a with re := .group (if noncap then -1 else (k : Int) + 1) a.re, rest := a.rest.tail }
      else .error (some .UNMATCHED_PAREN)
    else if a.rest = [] then .ok a
    else if peek a.rest = ')' then .error (some .UNMATCHED_PAREN)
    else .error (some .JUNK_ON_END)

def parseAlts : Nat → Re → Flags → Nat → Str → Compiled Parse
  | 0, _, _, _, _ => .error none
  | n + 1, r, f, k, s =>
    if peek s = '|' then do
      let b ← parseBranch n k s.tail
      parseAlts n (r.addAlt b.re) (f.orElse b.flags) b.re_nsub b.rest
    else .ok ⟨r, f, k, s⟩

def parseBranch : Nat → Nat → Str → Compiled Parse
  | 0, _, _ => .error none
  | n + 1, k, s => do
    let (r, f, k, s) ← parsePieces n none ⟨false, false, false⟩ k s
    .ok ⟨r.getD .nothing, f, k, s⟩

def parsePieces : Nat → Option Re → Flags → Nat → Str → Compiled (Option Re × Flags × Nat × Str)
  | 0, _, _, _, _ => .error none
  | n + 1, r, f, k, s =>
    if s = [] ∨ peek s = ')' ∨ peek s = '|' then .ok (r, f, k, s)
    else do
      let p ← parsePiece n k s
      parsePieces n (some (r.elim p.re (·.cat p.re))) (f.andThen p.flags r.isNone) p.re_nsub p.rest

def parsePiece : Nat → Nat → Str → Compiled Parse
  | 0, _, _ => .error none
  | n + 1, k, s => do
    let a ← parseAtom n k s
    let op := peek a.rest
    if isMult op = false then .ok a
    else if a.flags.hasWidth = false ∧ op ≠ '?' then .error (some .OPERAND_COULD_BE_EMPTY)
    else do
      let (min, max, s) ← Compiled.of (repCount a.rest)
      let minimal : Bool := peek s.tail = '?'
      let s := if minimal then s.drop 2 else s.tail
      if isMult (peek s) then .error (some .NESTED_COUNT)
      else .ok ⟨.repeated minimal min max a.re, ⟨min ≠ 0, false, min = 0⟩, a.re_nsub, s⟩

def parseAtom : Nat → Nat → Str → Compiled Parse
  | 0, _, _ => .error none
  | n + 1, k, s =>
    match s with
    | [] => .error (some .INTERNAL)
    | c :: s =>
      if c = '(' then do
        let r ← parseReg n true k s
        .ok { r with flags := { r.flags with simple := false } }
      else do
        let (l, s) ← Compiled.of (regleaf c s)
        .ok ⟨.leaf l, l.flags, k, s⟩

end

def parse (exp : Str) : Compiled Parse := parseReg (5 * exp.length + 5) false 0 exp

/-! ## Layouts -/

section
variable {r s : Re} {d : Option Nat} {pre post : Program} {P : Program}

@[simp] theorem length_code : ∀ (r : Re) (d : Option Nat), (r.code d).length = r.size
  | .leaf l, d => by simp [Re.code, Re.size]; omega
  | .nothing, d => rfl
  | .cat r s, d => by simp [Re.code, Re.size, length_code r, length_code s]
  | .branch r, d => by simp [Re.code, Re.size, length_code r]; omega
  | .alt r s, d => by simp [Re.code, Re.size, length_code r, length_code s]; omega
  | .group no r, d => by simp [Re.code, Re.size, length_code r]; omega
  | .rep _ _ _ l, d => by simp [Re.code, Re.size]; omega
  | .repx _ _ _ _ r, d => by simp [Re.code, Re.size, length_code r]; omega

theorem word_append (pre Q : Program) (i : Nat) : word (pre ++ Q) (pre.length + i) = word Q i := by
  rw [word, word, List.getD_eq_getElem?_getD, List.getD_eq_getElem?_getD, List.getElem?_append_right (Nat.le_add_right _ _),
    Nat.add_sub_cancel_left]

theorem word_here (pre Q : Program) : word (pre ++ Q) pre.length = word Q 0 := word_append pre Q 0

theorem regnext_append (pre : Program) (op off : Int) (post : Program) (hop : op ≠ opBack) (hoff : 0 ≤ off) :
    regnext (pre ++ op :: off :: post) pre.length = if off = 0 then 0 else pre.length + off.toNat := by
  have hword : word (pre ++ op :: off :: post) pre.length = op := word_here _ _
  have hnext : word (pre ++ op :: off :: post) (pre.length + 1) = off := word_append _ _ 1
  unfold regnext
  simp only [hword, hnext, if_neg hop]
  by_cases h : off = 0
  · rw [if_pos h, if_pos h]
  · rw [if_neg h, if_neg h]
    omega

theorem set_append (pre : Program) (a b : Int) (post : Program) :
    (pre ++ a :: post).set pre.length b = pre ++ b :: post := by
  simp

end

/-! ## Links -/

inductive Leads (P : Program) : Nat → Nat → Nat → Prop
  | here (p : Nat) : Leads P 0 p p
  | next {k p q t : Nat} : regnext P p = q → q ≠ 0 → Leads P k q t → Leads P (k + 1) p t

section
variable {r : Re} {alts : Bool} {pre post P : Program} {d k l p q t : Nat}

theorem Leads.one (h : regnext P p = q) (hq : q ≠ 0) : Leads P 1 p q := .next h hq (.here q)

theorem Leads.trans (h : Leads P k p q) (h' : Leads P l q t) : Leads P (k + l) p t := by
  induction h with
  | here p => rwa [Nat.zero_add]
  | next hn hq _ ih =>
    rw [Nat.add_right_comm]
    exact .next hn hq (ih h')

theorem lastNode_of_leads (h : Leads P k p t) (ht : regnext P t = 0) : ∀ {n : Nat}, k ≤ n → lastNode P n p = t := by
  induction h with
  | here p =>
    intro n _
    cases n with
    | zero => rfl
    | succ n => rw [lastNode, if_pos ht]
  | next hn hq _ ih =>
    intro n hk
    cases n with
    | zero => exact absurd hk (Nat.not_succ_le_zero _)
    | succ n => rw [lastNode, hn, if_neg hq, ih ht (Nat.le_of_succ_le_succ hk)]

theorem Leaf.op_ne (l : Leaf) : l.op ≠ opBack := by
  cases l with
  | set but _ =>
    change (if but then opAnybut else opAnyof) ≠ opBack
    cases but <;> decide
  | exactly _ =>
    change opExactly ≠ opBack
    decide
  | _ => decide

theorem minimal_ne (minimal : Bool) :
    (if minimal then opRepmin else opRep) ≠ opBack ∧ (if minimal then opRepxmin else opRepx) ≠ opBack := by
  cases minimal <;> decide

theorem paren_ne {no : Int} (h : -1 ≤ no) : opOpen + no ≠ opBack ∧ opClose + no ≠ opBack := by
  change 1001 + no ≠ 7 ∧ 2001 + no ≠ 7
  omega

theorem paren_ne_branch {no : Int} (h : -1 ≤ no) : opOpen + no ≠ opBranch ∧ opClose + no ≠ opBranch := by
  change 1001 + no ≠ 6 ∧ 2001 + no ≠ 6
  omega

theorem regnext_link (pre : Program) {op : Int} (hop : op ≠ opBack) (n d : Nat) (hn : 0 < n) (post : Program) :
    regnext (pre ++ op :: Re.link n (some d) :: post) pre.length = pre.length + (n + d) := by
  have hlink : Re.link n (some d) = ((n + d : Nat) : Int) := rfl
  rw [hlink, regnext_append _ _ _ _ hop (by omega), if_neg (by omega), Int.toNat_natCast]

theorem regnext_none (pre : Program) (op : Int) (n : Nat) (post : Program) :
    regnext (pre ++ op :: Re.link n none :: post) pre.length = 0 := by
  have hnext : word (pre ++ op :: Re.link n none :: post) (pre.length + 1) = 0 := word_append _ _ 1
  unfold regnext
  simp only [hnext, if_pos]

theorem Re.Sorted.leads : ∀ {r : Re} {alts : Bool}, r.Sorted alts → ∀ (pre post : Program) (d : Nat),
    ∃ k ≤ r.size, Leads (pre ++ (r.code (some d) ++ post)) k pre.length (pre.length + (r.size + d)) := by
  intro r
  induction r with
  | leaf l =>
    intro alts h pre post d
    exact ⟨1, by simp [Re.size]; omega, .one (regnext_link pre l.op_ne _ d (by omega) _) (by simp [Re.size])⟩
  | nothing =>
    intro alts h pre post d
    exact ⟨1, by simp [Re.size], .one (regnext_link pre (by decide) 2 d (by omega) _) (by simp [Re.size])⟩
  | cat r s ihr ihs =>
    rintro alts ⟨-, hr, hs⟩ pre post d
    obtain ⟨k, hk, hkr⟩ := ihr hr pre (s.code (some d) ++ post) 0
    obtain ⟨l, hl, hls⟩ := ihs hs (pre ++ r.code (some 0)) post d
    refine ⟨k + l, by simp only [Re.size]; omega, ?_⟩
    have htrans := hkr.trans (q := pre.length + (r.size + 0)) (by simpa using hls)
    simpa [Re.code, Re.size, Nat.add_assoc] using htrans
  | branch r ih =>
    rintro alts ⟨-, hr⟩ pre post d
    exact ⟨1, by simp only [Re.size]; omega,
      .one (regnext_link pre (by decide) _ d (by omega) _) (by simp only [Re.size]; omega)⟩
  | alt r s ihr ihs =>
    rintro alts ⟨-, hr, hs⟩ pre post d
    obtain ⟨l, hl, hls⟩ := ihs hs (pre ++ opBranch :: ((2 + r.size : Nat) : Int) :: r.code (some (s.size + d))) post d
    refine ⟨l + 1, by simp only [Re.size]; omega, .next (q := pre.length + (2 + r.size)) ?_ (by omega) ?_⟩
    · exact regnext_link pre (by decide) (2 + r.size) 0 (by omega) _
    · have hlen : (pre ++ opBranch :: ((2 + r.size : Nat) : Int) :: r.code (some (s.size + d))).length =
          pre.length + (2 + r.size) := by simp; omega
      rw [hlen] at hls
      simpa [Re.code, Re.size, Nat.add_assoc] using hls
  | group no r ih =>
    rintro alts ⟨-, hno, hr⟩ pre post d
    obtain ⟨k, hk, hkr⟩ := ih hr (pre ++ [opOpen + no, 2]) ([opClose + no, Re.link 2 (some d)] ++ post) 0
    have hopen : regnext (pre ++ ((Re.group no r).code (some d) ++ post)) pre.length = pre.length + 2 :=
      regnext_link pre (paren_ne hno).1 2 0 (by omega) _
    have hclose := regnext_link (pre ++ (opOpen + no) :: 2 :: r.code (some 0)) (paren_ne hno).2 2 d (by omega) post
    refine ⟨k + 1 + 1, by simp only [Re.size]; omega, .next hopen (by omega) ?_⟩
    refine .trans (q := pre.length + (2 + r.size)) ?_ (.one ?_ ?_)
    · simpa [Re.code, Nat.add_assoc] using hkr
    · have hlen : (pre ++ (opOpen + no) :: 2 :: r.code (some 0)).length = pre.length + (2 + r.size) := by simp; omega
      rw [hlen] at hclose
      simp only [Re.code, Re.size, List.cons_append, List.append_assoc, List.nil_append] at hclose ⊢
      rw [hclose]
      omega
    · simp only [Re.size]; omega
  | rep minimal min max l =>
    intro alts h pre post d
    exact ⟨1, by simp [Re.size]; omega, .one (regnext_link pre (minimal_ne minimal).1 _ d (by omega) _) (by simp [Re.size])⟩
  | repx minimal min max count r ih =>
    intro alts h pre post d
    exact ⟨1, by simp only [Re.size]; omega,
      .one (regnext_link pre (minimal_ne minimal).2 _ d (by omega) _) (by simp only [Re.size]; omega)⟩

structure Ends (P : Program) (p t n : Nat) : Prop where
  leads : ∃ k ≤ n, Leads P k p t
  next : regnext P t = 0
  op : word P t ≠ opBack

theorem ends_here (pre : Program) {op : Int} (hop : op ≠ opBack) (m n : Nat) (post : Program) :
    Ends (pre ++ op :: Re.link m none :: post) pre.length (pre.length + 0) n :=
  ⟨⟨0, Nat.zero_le n, .here _⟩, regnext_none pre op m post, by rwa [word_append]⟩

theorem Re.Sorted.ends : ∀ {r : Re} {alts : Bool}, r.Sorted alts → ∀ (pre post : Program),
    Ends (pre ++ (r.code none ++ post)) pre.length (pre.length + r.tail) r.size := by
  intro r
  induction r with
  | leaf l => exact fun h pre post => ends_here pre l.op_ne _ _ _
  | nothing => exact fun h pre post => ends_here pre (by decide) 2 _ _
  | cat r s ihr ihs =>
    rintro alts ⟨-, hr, hs⟩ pre post
    obtain ⟨k, hk, hkr⟩ := hr.leads pre (s.code none ++ post) 0
    obtain ⟨⟨l, hl, hls⟩, hnext, hop⟩ := ihs hs (pre ++ r.code (some 0)) post
    have hassoc : pre ++ ((Re.cat r s).code none ++ post) = pre ++ r.code (some 0) ++ (s.code none ++ post) := by
      simp [Re.code]
    have hlen : (pre ++ r.code (some 0)).length = pre.length + r.size := by simp
    have htail : pre.length + (Re.cat r s).tail = pre.length + r.size + s.tail := by simp [Re.tail, Nat.add_assoc]
    rw [hlen] at hls hnext hop
    rw [hassoc, htail]
    exact ⟨⟨k + l, Nat.add_le_add hk hl, Leads.trans (by simpa using hkr) hls⟩, hnext, hop⟩
  | branch r ih => exact fun h pre post => ends_here pre (by decide) _ _ _
  | alt r s ihr ihs =>
    rintro alts ⟨-, hr, hs⟩ pre post
    obtain ⟨⟨l, hl, hls⟩, hnext, hop⟩ := ihs hs (pre ++ opBranch :: ((2 + r.size : Nat) : Int) :: r.code none) post
    have hassoc : pre ++ ((Re.alt r s).code none ++ post) =
        pre ++ opBranch :: ((2 + r.size : Nat) : Int) :: r.code none ++ (s.code none ++ post) := by
      simp [Re.code]
    have hlen : (pre ++ opBranch :: ((2 + r.size : Nat) : Int) :: r.code none).length = pre.length + (2 + r.size) := by
      simp; omega
    have htail : pre.length + (Re.alt r s).tail = pre.length + (2 + r.size) + s.tail := by simp [Re.tail, Nat.add_assoc]
    have hfirst : regnext (pre ++ ((Re.alt r s).code none ++ post)) pre.length = pre.length + (2 + r.size) :=
      regnext_link pre (by decide) (2 + r.size) 0 (by omega) _
    rw [hlen] at hls hnext hop
    rw [hassoc] at hfirst ⊢
    rw [htail]
    exact ⟨⟨l + 1, by simp only [Re.size]; omega, .next hfirst (by omega) hls⟩, hnext, hop⟩
  | group no r ih =>
    rintro alts ⟨-, hno, hr⟩ pre post
    obtain ⟨k, hk, hkr⟩ := hr.leads (pre ++ [opOpen + no, 2]) ([opClose + no, Re.link 2 none] ++ post) 0
    have hopen : regnext (pre ++ ((Re.group no r).code none ++ post)) pre.length = pre.length + 2 :=
      regnext_link pre (paren_ne hno).1 2 0 (by omega) _
    have hassoc : pre ++ ((Re.group no r).code none ++ post) =
        pre ++ (opOpen + no) :: 2 :: r.code (some 0) ++ (opClose + no) :: Re.link 2 none :: post := by simp [Re.code]
    have hlen : (pre ++ (opOpen + no) :: 2 :: r.code (some 0)).length = pre.length + (2 + r.size) := by simp; omega
    have hclose := ends_here (pre ++ (opOpen + no) :: 2 :: r.code (some 0)) (paren_ne hno).2 2 0 post
    rw [hlen] at hclose
    rw [hassoc] at hopen ⊢
    refine ⟨⟨k + 1, by simp only [Re.size]; omega, .next hopen (by omega) ?_⟩, hclose.next, hclose.op⟩
    simpa [Re.tail, Nat.add_assoc] using hkr
  | rep minimal min max l => exact fun h pre post => ends_here pre (minimal_ne minimal).1 _ _ _
  | repx minimal min max count r ih => exact fun h pre post => ends_here pre (minimal_ne minimal).2 _ _ _

theorem regtail_of_ends {n val : Nat} (h : Ends P p t n) (hn : n ≤ P.length) :
    regtail P p val = P.set (t + 1) ((val : Int) - t) := by
  obtain ⟨k, hk, hkt⟩ := h.leads
  unfold regtail
  simp only [lastNode_of_leads hkt h.next (hk.trans hn), if_neg h.op]

theorem Re.Sorted.set_tail : ∀ {r : Re}, r.Sorted false → ∀ (pre post : Program) (d : Nat),
    (pre ++ (r.code none ++ post)).set (pre.length + r.tail + 1) (((r.size + d : Nat) : Int) - r.tail) =
      pre ++ (r.code (some d) ++ post) := by
  intro r
  induction r with
  | leaf l =>
    intro h pre post d
    simp [Re.code, Re.tail, Re.link, Re.size]
  | nothing =>
    intro h pre post d
    simp [Re.code, Re.tail, Re.link, Re.size]
  | cat r s ihr ihs =>
    rintro ⟨-, hr, hs⟩ pre post d
    have hset := ihs hs (pre ++ r.code (some 0)) post d
    have hval : (((Re.cat r s).size + d : Nat) : Int) - (Re.cat r s).tail = ((s.size + d : Nat) : Int) - s.tail := by
      simp only [Re.size, Re.tail]
      omega
    rw [hval]
    simpa [Re.code, Re.tail, Nat.add_assoc] using hset
  | branch r ih => exact fun h => absurd h.1 (by decide)
  | alt r s ihr ihs => exact fun h => absurd h.1 (by decide)
  | group no r ih =>
    intro h pre post d
    have hset := set_append (pre ++ (opOpen + no) :: 2 :: r.code (some 0) ++ [opClose + no]) 0 ((2 + d : Nat) : Int) post
    have hval : (((Re.group no r).size + d : Nat) : Int) - (Re.group no r).tail = ((2 + d : Nat) : Int) := by
      simp only [Re.size, Re.tail]
      omega
    rw [hval]
    have hlen : (pre ++ (opOpen + no) :: 2 :: r.code (some 0) ++ [opClose + no]).length =
        pre.length + (Re.group no r).tail + 1 := by
      simp [Re.tail]
      omega
    rw [hlen] at hset
    simpa [Re.code, Re.link] using hset
  | rep minimal min max l =>
    intro h pre post d
    simp [Re.code, Re.tail, Re.link, Re.size]
  | repx minimal min max count r ih =>
    intro h pre post d
    simp [Re.code, Re.tail, Re.link, Re.size]

theorem Re.Sorted.regtail (h : r.Sorted false) (pre post : Program) (d : Nat) :
    Regexp.regtail (pre ++ (r.code none ++ post)) pre.length (pre.length + (r.size + d)) = pre ++ (r.code (some d) ++ post) := by
  rw [regtail_of_ends (h.ends pre post) (by simp; omega), ← h.set_tail]
  congr 1
  omega

/-! ## Alternatives -/

theorem Ends.of_leads {j n : Nat} (h : Leads P j p q) (hj : j ≤ n) (he : Ends P q t d) : Ends P p t (n + d) := by
  obtain ⟨k, hk, hkt⟩ := he.leads
  exact ⟨⟨j + k, Nat.add_le_add hj hk, h.trans hkt⟩, he.next, he.op⟩

theorem Re.Sorted.set_partly : ∀ {r : Re}, r.Sorted true → ∀ (pre post : Program),
    (pre ++ (r.code none ++ post)).set (pre.length + r.tail + 1) ((r.size : Int) - r.tail) = pre ++ (r.partly ++ post) := by
  intro r
  induction r with
  | branch r ih =>
    intro h pre post
    simp [Re.code, Re.partly, Re.tail, Re.link, Re.size]
  | alt r s ihr ihs =>
    intro h pre post
    have hset := ihs h.2.2 (pre ++ opBranch :: ((2 + r.size : Nat) : Int) :: r.code none) post
    have hval : (((Re.alt r s).size : Nat) : Int) - (Re.alt r s).tail = (s.size : Int) - s.tail := by
      simp only [Re.size, Re.tail]
      omega
    have hlen : (pre ++ opBranch :: ((2 + r.size : Nat) : Int) :: r.code none).length + s.tail =
        pre.length + (Re.alt r s).tail := by
      simp [Re.tail]
      omega
    rw [hlen] at hset
    rw [hval]
    simpa [Re.code, Re.partly] using hset
  | leaf | nothing | cat | group | rep | repx =>
    intro h
    simp [Re.Sorted] at h

theorem Re.Sorted.partly_append (b : Re) :
    ∀ {r : Re}, r.Sorted true → r.partly ++ (Re.branch b).code none = (r.addAlt b).code none := by
  intro r
  induction r with
  | branch r ih =>
    intro h
    simp [Re.partly, Re.addAlt, Re.code]
  | alt r s ihr ihs =>
    intro h
    simp [Re.addAlt, Re.code, Re.partly, ← ihs h.2.2]
  | leaf | nothing | cat | group | rep | repx =>
    intro h
    simp [Re.Sorted] at h

@[simp] theorem length_partly : ∀ r : Re, r.partly.length = r.size
  | .branch r => by simp [Re.partly, Re.size]; omega
  | .alt r s => by simp [Re.partly, Re.size, length_partly s]; omega
  | .leaf _ | .nothing | .cat _ _ | .group _ _ | .rep _ _ _ _ | .repx _ _ _ _ _ => by simp [Re.partly]

theorem Re.Sorted.addAlt {b : Re} (hb : b.Sorted false) : ∀ {r : Re}, r.Sorted true → (r.addAlt b).Sorted true := by
  intro r
  induction r with
  | branch r ih => exact fun h => ⟨rfl, h.2, rfl, hb⟩
  | alt r s ihr ihs => exact fun h => ⟨rfl, h.2.1, ihs h.2.2⟩
  | leaf | nothing | cat | group | rep | repx =>
    intro h
    simp [Re.Sorted] at h

theorem regoptail_branch (h : r.Sorted false) (pre post : Program) (hpre : pre ≠ []) (off : Int) (d : Nat) :
    regoptail (pre ++ opBranch :: off :: (r.code none ++ post)) pre.length (pre.length + (2 + r.size + d)) =
      pre ++ opBranch :: off :: (r.code (some d) ++ post) := by
  have htail := h.regtail (pre ++ [opBranch, off]) post d
  have hword : word (pre ++ opBranch :: off :: (r.code none ++ post)) pre.length = opBranch := word_here _ _
  have hlen : (pre ++ [opBranch, off]).length = pre.length + 2 := by simp
  have hval : pre.length + 2 + (r.size + d) = pre.length + (2 + r.size + d) := by omega
  rw [hlen, hval] at htail
  rw [regoptail, if_pos ⟨by simpa using hpre, hword⟩]
  simpa using htail

theorem Re.Sorted.regoptails : ∀ {r : Re}, r.Sorted true → ∀ (pre post : Program), pre ≠ [] →
    ∃ k ≤ r.size, ∀ n, Regexp.regoptails (pre.length + r.size) (n + k) (pre ++ (r.partly ++ post)) pre.length =
      Regexp.regoptails (pre.length + r.size) n (pre ++ (r.code (some 0) ++ post)) (pre.length + r.size) := by
  intro r
  induction r with
  | branch r ih =>
    intro h pre post hpre
    refine ⟨1, by simp only [Re.size]; omega, fun n => ?_⟩
    have hhook := regoptail_branch h.2 pre post hpre ((2 + r.size : Nat) : Int) 0
    have hnext : regnext (pre ++ opBranch :: ((2 + r.size : Nat) : Int) :: (r.code (some 0) ++ post)) pre.length =
        pre.length + (2 + r.size) :=
      regnext_link pre (by decide) (2 + r.size) 0 (by omega) _
    have hne : pre.length ≠ 0 := by simpa using hpre
    rw [Regexp.regoptails, if_neg hne]
    simp only [Re.partly, Re.size, List.cons_append, Re.code, Re.link, Nat.add_zero] at hhook ⊢
    rw [hhook, hnext]
  | alt r s ihr ihs =>
    intro h pre post hpre
    obtain ⟨k, hk, hks⟩ := ihs h.2.2 (pre ++ opBranch :: ((2 + r.size : Nat) : Int) :: r.code (some s.size)) post (by simp)
    have hhook := regoptail_branch h.2.1 pre (s.partly ++ post) hpre ((2 + r.size : Nat) : Int) s.size
    have hnext : regnext (pre ++ opBranch :: ((2 + r.size : Nat) : Int) :: (r.code (some s.size) ++ (s.partly ++ post)))
        pre.length = pre.length + (2 + r.size) :=
      regnext_link pre (by decide) (2 + r.size) 0 (by omega) _
    have hne : pre.length ≠ 0 := by simpa using hpre
    refine ⟨k + 1, by simp only [Re.size]; omega, fun n => ?_⟩
    have hlen : (pre ++ opBranch :: ((2 + r.size : Nat) : Int) :: r.code (some s.size)).length =
        pre.length + (2 + r.size) := by
      simp
      omega
    have hstep := hks n
    rw [hlen, Nat.add_assoc pre.length] at hstep
    rw [← Nat.add_assoc, Regexp.regoptails, if_neg hne]
    simp only [Re.partly, Re.size, List.cons_append, List.append_assoc, Re.code, Option.map_some] at hhook hstep ⊢
    rw [hhook, hnext]
    exact hstep
  | leaf | nothing | cat | group | rep | repx =>
    intro h
    simp [Re.Sorted] at h

theorem Re.Sorted.regtail_partly (h : r.Sorted true) {j : Nat} (hj : j ≤ pre.length)
    (hp : ∀ Q, Leads (pre ++ Q) j p pre.length) (post : Program) :
    Regexp.regtail (pre ++ (r.code none ++ post)) p (pre.length + r.size) = pre ++ (r.partly ++ post) := by
  have hends := Ends.of_leads (hp _) hj (h.ends pre post)
  have hlen : pre.length + r.size ≤ (pre ++ (r.code none ++ post)).length := by simp
  have hval : ((pre.length + r.size : Nat) : Int) - ((pre.length + r.tail : Nat) : Int) = (r.size : Int) - r.tail := by
    omega
  rw [regtail_of_ends hends hlen, hval, h.set_partly]

theorem regoptails_zero (e n : Nat) (P : Program) : regoptails e n P 0 = P := by
  cases n with
  | zero => rfl
  | succ n => rw [regoptails, if_pos rfl]

theorem regoptails_skip (e n : Nat) (hp : p ≠ 0) (hop : word P p ≠ opBranch) :
    regoptails e (n + 1) P p = regoptails e n P (regnext P p) := by
  have hnop : regoptail P p e = P := if_neg fun h => hop h.2
  rw [regoptails, if_neg hp]
  simp only [hnop]

theorem Re.Sorted.regoptails_all (h : r.Sorted true) (hpre : pre ≠ []) {op : Int} (hop : op ≠ opBranch) {n : Nat}
    (hn : r.size < n) :
    Regexp.regoptails (pre.length + r.size) n (pre ++ (r.partly ++ [op, 0])) pre.length =
      pre ++ (r.code (some 0) ++ [op, 0]) := by
  obtain ⟨k, hk, hall⟩ := h.regoptails pre [op, 0] hpre
  obtain ⟨m, rfl⟩ := Nat.exists_eq_add_of_le (Nat.succ_le_of_lt (hk.trans_lt hn))
  have hender : word (pre ++ (r.code (some 0) ++ [op, 0])) (pre.length + r.size) = op := by simp [word]
  have hnext : regnext (pre ++ (r.code (some 0) ++ [op, 0])) (pre.length + r.size) = 0 := by
    have hnone := regnext_none (pre ++ r.code (some 0)) op 0 []
    simpa [Re.link] using hnone
  have hne : pre.length + r.size ≠ 0 := by
    have hpos : pre.length ≠ 0 := by simpa using hpre
    omega
  have hskip : word (pre ++ (r.code (some 0) ++ [op, 0])) (pre.length + r.size) ≠ opBranch := by rwa [hender]
  rw [Nat.succ_add, Nat.add_comm k m, ← Nat.succ_add, hall, regoptails_skip _ _ hne hskip, hnext, regoptails_zero]

end

end Iamroot.Regexp
