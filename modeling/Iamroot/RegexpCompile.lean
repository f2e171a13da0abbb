import Iamroot.RegexpTree

/-!
# The compiler writes the layout

What `jim_regcomp` compiles an expression to is the layout of its tree, and it fails
as the grammar does.
-/

namespace Iamroot.Regexp

/-! ## What is taken of the text -/

theorem map_ok {ε α β : Type} {x : Except ε α} {f : α → β} {b : β} (h : x.map f = .ok b) : ∃ a, x = .ok a ∧ f a = b := by
  cases x with
  | error e => cases h
  | ok a =>
    cases h
    exact ⟨a, rfl, rfl⟩

theorem bracketLoop_rest : ∀ {s : Str} {k : Nat} {t : Str} {rs : List CharRange},
    bracketLoop k s = .ok (rs, t) → t.length ≤ s.length := by
  intro s
  induction s with
  | nil =>
    intro k t rs h
    simp [bracketLoop] at h
  | cons c s ih =>
    intro k t rs h
    cases k with
    | succ k =>
      rw [bracketLoop] at h
      exact (ih h).trans (Nat.le_succ _)
    | zero =>
      rw [bracketLoop] at h
      split at h
      · cases h
        exact Nat.le_succ _
      · cases hitem : bracketItem c s with
        | error e => simp [hitem, bind, Except.bind] at h
        | ok r =>
          cases hrest : bracketLoop r.2 s with
          | error e => simp [hitem, hrest, bind, Except.bind] at h
          | ok u =>
            simp only [hitem, hrest, bind, Except.bind, Except.ok.injEq, Prod.mk.injEq] at h
            exact h.2 ▸ (ih hrest).trans (Nat.le_succ _)

theorem bracket_rest {s t : Str} {l : Leaf} (h : bracket s = .ok (l, t)) : t.length ≤ s.length := by
  have hdrop : ∀ (p : Prop) [Decidable p] (u : Str), (if p then u.tail else u).length ≤ u.length := by
    intro p _ u
    split
    · simp
    · exact le_rfl
  unfold bracket at h
  simp only [bind, Except.bind] at h
  split at h
  · cases h
  · rename_i u hu
    cases h
    exact (bracketLoop_rest hu).trans ((hdrop _ _).trans (hdrop _ _))

/-- What the loop of `EXACTLY` does at a character: it ends in front of it, or takes it, as the last one or not. -/
theorem exactlyLoop_cases {added : Bool} {c : Char} {s t : Str} {cs : List Int} (h : exactlyLoop 0 added (c :: s) = .ok (cs, t)) :
    (cs = [] ∧ t = c :: s ∧
      (added = true ∨ metaChars.contains c ∨ c = '\\' ∧ "<>mMwWdDsSAZ".toList.contains (peek s))) ∨
    ∃ k v cs', cs = v :: cs' ∧ (v = 0 → c = nul) ∧ (cs' = [] ∧ t = s.drop k ∨ exactlyLoop k true s = .ok (cs', t)) := by
  rw [exactlyLoop] at h
  simp only at h
  split at h
  · rename_i hstop
    cases h
    exact .inl ⟨rfl, rfl, .inr (hstop.imp id fun h => ⟨h.1.1, h.2⟩)⟩
  · generalize hr : (if c = '\\' ∧ s ≠ [] then decodeEscape s else (0, (c.toNat : Int))) = r at h
    split at h
    · cases h
    · rename_i hnull
      have hzero : r.2 = 0 → c = nul := by
        intro hzero
        rw [not_and, hzero] at hnull
        rw [if_neg (fun he => hnull he rfl)] at hr
        subst hr
        have hnat : c.toNat = nul.toNat := Int.natCast_eq_zero.mp hzero
        exact Char.toNat_inj.mp hnat
      split at h
      · cases added with
        | true =>
          cases h
          exact .inl ⟨rfl, rfl, .inl rfl⟩
        | false =>
          cases h
          exact .inr ⟨r.1, r.2, [], rfl, hzero, .inl ⟨rfl, rfl⟩⟩
      · obtain ⟨u, hu, hut⟩ := map_ok h
        cases hut
        exact .inr ⟨r.1, r.2, u.1, rfl, hzero, .inr hu⟩

theorem exactlyLoop_rest : ∀ {s : Str} {k : Nat} {added : Bool} {t : Str} {cs : List Int},
    exactlyLoop k added s = .ok (cs, t) → t.length ≤ s.length := by
  intro s
  induction s with
  | nil =>
    intro k added t cs h
    cases k <;> simp [exactlyLoop] at h <;> simp [← h.2]
  | cons c s ih =>
    intro k added t cs h
    cases k with
    | succ k =>
      rw [exactlyLoop] at h
      exact (ih h).trans (Nat.le_succ _)
    | zero =>
      obtain ⟨-, rfl, -⟩ | ⟨k, v, cs', -, -, ⟨-, rfl⟩ | h⟩ := exactlyLoop_cases h
      · exact le_rfl
      · simp
        omega
      · exact (ih h).trans (Nat.le_succ _)

theorem regexactly_rest {c : Char} {s t : Str} {l : Leaf} (hmeta : metaChars.contains c = false)
    (hescape : c = '\\' → "<>mMwWdDsSAZ".toList.contains (peek s) = false) (h : regexactly (c :: s) = .ok (l, t)) :
    t.length ≤ s.length := by
  obtain ⟨u, hu, hut⟩ := map_ok h
  cases hut
  obtain ⟨-, -, hadded | hstop | ⟨hc, hstop⟩⟩ | ⟨k, v, cs', -, -, ⟨-, hrest⟩ | hrest⟩ := exactlyLoop_cases hu
  · cases hadded
  · rw [hmeta] at hstop
    cases hstop
  · rw [hescape hc] at hstop
    cases hstop
  · rw [hrest, List.length_drop]
    exact Nat.sub_le _ _
  · exact exactlyLoop_rest hrest

theorem escapeLeaf_none {d : Char} (h : escapeLeaf d = none) : "<>mMwWdDsSAZ".toList.contains d = false := by
  unfold escapeLeaf at h
  split_ifs at h with hA hZ hworda hwordz hdigit hword hspace
  simp only [not_or] at hworda hwordz hdigit hword hspace
  simp [hA, hZ, hworda, hwordz, hdigit, hword, hspace]

theorem metaChars_eq : metaChars = ['^', '$', '.', '[', '(', ')', '|', '?', '{', '+', '*'] := rfl

theorem metaChars_of_regleaf {c : Char} (hbol : c ≠ '^') (heol : c ≠ '$') (hany : c ≠ '.') (hset : c ≠ '[')
    (hstop : ¬ (c = '|' ∨ c = ')')) (hmult : ¬ isMult c = true) (hparen : c ≠ '(') : metaChars.contains c = false := by
  simp only [not_or] at hstop
  simp only [isMult, Bool.or_eq_true, decide_eq_true_eq, not_or] at hmult
  obtain ⟨⟨⟨hs, hp⟩, hq⟩, hb⟩ := hmult
  rw [metaChars_eq]
  simp [hbol, heol, hany, hset, hparen, hstop, hs, hp, hq, hb]

theorem regleaf_rest {c : Char} {s t : Str} {l : Leaf} (hparen : c ≠ '(') (h : regleaf c s = .ok (l, t)) : t.length ≤ s.length := by
  unfold regleaf at h
  split_ifs at h with hbol heol hany hset hstop hmult hback
  · cases h
    exact le_rfl
  · cases h
    exact le_rfl
  · cases h
    exact le_rfl
  · exact bracket_rest h
  · have hmeta := metaChars_of_regleaf hbol heol hany hset hstop hmult hparen
    cases s with
    | nil => cases h
    | cons d s =>
      cases hd : escapeLeaf d with
      | some l =>
        simp only [hd] at h
        cases h
        exact Nat.le_succ _
      | none =>
        simp only [hd] at h
        exact regexactly_rest hmeta (fun _ => escapeLeaf_none hd) h
  · have hmeta := metaChars_of_regleaf hbol heol hany hset hstop hmult hparen
    exact regexactly_rest hmeta (fun hc => absurd hc hback) h

theorem repCount_rest {s t : Str} {min max : Int} (h : repCount s = .ok (min, max, t)) : t.length ≤ s.length := by
  have hend : (s.drop ((strtoulTen s.tail).1 + 1)).length ≤ s.length := by
    rw [List.length_drop]
    exact Nat.sub_le _ _
  unfold repCount at h
  simp only at h
  have hbrace := (List.dropWhile_sublist (· ≠ '}') (l := s.drop ((strtoulTen s.tail).1 + 1))).length_le
  split_ifs at h <;> cases h <;> omega

/-! ## Step by step -/

inductive Agrees {α β : Type} (R : α → β → Prop) : Compiled α → Compiled β → Prop
  | error (e : RegErr) : Agrees R (.error (some e)) (.error (some e))
  | ok {a : α} {b : β} : R a b → Agrees R (.ok a) (.ok b)

section
variable {α β γ δ : Type} {R : α → β → Prop} {S : γ → δ → Prop}

theorem Agrees.bind {x : Compiled α} {y : Compiled β} {f : α → Compiled γ} {g : β → Compiled δ}
    (h : Agrees R x y) (hf : ∀ a b, R a b → Agrees S (f a) (g b)) : Agrees S (x >>= f) (y >>= g) := by
  cases h with
  | error e => exact .error e
  | ok hab => exact hf _ _ hab

theorem Agrees.mono {R' : α → β → Prop} {x : Compiled α} {y : Compiled β} (h : Agrees R x y)
    (hR : ∀ a b, R a b → R' a b) : Agrees R' x y := by
  cases h with
  | error e => exact .error e
  | ok hab => exact .ok (hR _ _ hab)

theorem Agrees.of (x : Except RegErr α) : Agrees (fun a b => a = b ∧ x = .ok a) (.of x) (.of x) := by
  cases x with
  | error e => exact .error e
  | ok a => exact .ok ⟨rfl, rfl⟩

end

structure Wrote (P : Program) (n : Nat) (a : Nat × Flags × RegComp) (t : Parse) : Prop where
  sorted : t.re.Sorted false
  eq : a = (P.length, t.flags, ⟨t.rest, P ++ t.re.code none, t.re_nsub⟩)
  rest : t.rest.length ≤ n

theorem Wrote.mono {P : Program} {m n : Nat} {a : Nat × Flags × RegComp} {t : Parse} (h : Wrote P m a t) (hmn : m ≤ n) :
    Wrote P n a t :=
  ⟨h.sorted, h.eq, h.rest.trans hmn⟩

/-- The pieces up to now are written behind `P`, and the last of them is at `chain`. -/
def Chained (P : Program) : Option Re → Nat → Program → Prop
  | none, chain, Q => chain = 0 ∧ Q = P
  | some r, chain, Q => r.Sorted false ∧ Q = P ++ r.code none ∧
      ∃ (P' : Program) (p : Re), P' ≠ [] ∧ chain = P'.length ∧ p.Sorted false ∧ ∀ d, P ++ r.code d = P' ++ p.code d

/-- What the compiler and the grammar do with `n` of fuel. -/
structure Lockstep (n : Nat) : Prop where
  group : ∀ s P k, P ≠ [] → 5 * s.length + 5 ≤ n →
    Agrees (fun a t => Wrote P s.length a t ∧ t.re.simple = none) (reg n true ⟨s, P, k⟩) (parseReg n true k s)
  alts : ∀ s P k r f ret j, r.Sorted true → j ≤ P.length → (∀ Q, Leads (P ++ Q) j ret P.length) → 5 * s.length + 4 ≤ n →
    Agrees (fun a t => t.re.Sorted true ∧ t.rest.length ≤ s.length ∧
        a = (t.flags, ⟨t.rest, P ++ t.re.code none, t.re_nsub⟩))
      (regalts n ret f ⟨s, P ++ r.code none, k⟩) (parseAlts n r f k s)
  branch : ∀ s P k, 5 * s.length + 4 ≤ n →
    Agrees (fun a t => t.re.Sorted false ∧ t.rest.length ≤ s.length ∧
        a = (P.length, t.flags, ⟨t.rest, P ++ (Re.branch t.re).code none, t.re_nsub⟩))
      (regbranch n ⟨s, P, k⟩) (parseBranch n k s)
  pieces : ∀ s P k f r chain Q, P ≠ [] → Chained P r chain Q → 5 * s.length + 3 ≤ n →
    Agrees (fun a t => ∃ Q', Chained P t.1 a.1 Q' ∧ a.2 = (t.2.1, ⟨t.2.2.2, Q', t.2.2.1⟩) ∧ t.2.2.2.length ≤ s.length)
      (regpieces n chain f ⟨s, Q, k⟩) (parsePieces n r f k s)
  piece : ∀ s P k, s ≠ [] → P ≠ [] → 5 * s.length + 2 ≤ n →
    Agrees (Wrote P (s.length - 1)) (regpiece n ⟨s, P, k⟩) (parsePiece n k s)
  atom : ∀ s P k, s ≠ [] → P ≠ [] → 5 * s.length + 1 ≤ n →
    Agrees (fun a t => Wrote P (s.length - 1) a t ∧ t.flags.simple = t.re.simple.isSome)
      (regatom n ⟨s, P, k⟩) (parseAtom n k s)

/-! ## Pieces -/

theorem Re.eq_of_simple {r : Re} {l : Leaf} (h : r.simple = some l) : r = .leaf l := by
  cases r with
  | leaf l' =>
    by_cases hs : l'.flags.simple = true
    · rw [Re.simple, if_pos hs] at h
      rw [Option.some.inj h]
    · rw [Re.simple, if_neg hs] at h
      cases h
  | _ => cases h

theorem Re.Sorted.repeated {r : Re} (h : r.Sorted false) (minimal : Bool) (min max : Int) :
    (Re.repeated minimal min max r).Sorted false := by
  unfold Re.repeated
  split
  · rfl
  · exact ⟨rfl, h⟩

theorem reginsert_append (P A : Program) (op max min : Int) :
    (((reginsert (P ++ A) op 5 P.length).set (P.length + 2) max).set (P.length + 3) min).set (P.length + 4) 0 =
      P ++ (op :: 0 :: max :: min :: 0 :: A) := by
  simp [reginsert, List.replicate]

theorem regtail_back (P : Program) (p : Nat) : regtail (regnode P opBack) P.length p = P ++ [opBack, (P.length : Int) - p] := by
  have hnext : regnext (regnode P opBack) P.length = 0 := regnext_none P opBack 0 []
  have hword : word (regnode P opBack) P.length = opBack := word_here P _
  unfold regtail
  simp only [lastNode_of_leads (.here P.length) hnext (Nat.zero_le _), hword, if_pos]
  simp [regnode]

theorem regtail_repeated {r : Re} (h : r.Sorted false) (P : Program) (op max min : Int) :
    regtail (regtail (regnode (P ++ op :: 0 :: max :: min :: 0 :: r.code none) opBack)
        (P ++ op :: 0 :: max :: min :: 0 :: r.code none).length P.length) (P.length + 5)
        (P ++ op :: 0 :: max :: min :: 0 :: r.code none).length =
      P ++ op :: 0 :: max :: min :: 0 :: (r.code (some 0) ++ [opBack, ((5 + r.size : Nat) : Int)]) := by
  have hlen : (P ++ op :: 0 :: max :: min :: 0 :: r.code none).length = P.length + 5 + (r.size + 0) := by
    simp
    omega
  have hpre : (P ++ [op, 0, max, min, 0]).length = P.length + 5 := by simp
  have hback : ((P.length + 5 + (r.size + 0) : Nat) : Int) - (P.length : Int) = ((5 + r.size : Nat) : Int) := by omega
  have htail := h.regtail (P ++ [op, 0, max, min, 0]) [opBack, ((5 + r.size : Nat) : Int)] 0
  rw [hpre] at htail
  rw [regtail_back, hlen, hback]
  simpa using htail

section
variable {n : Nat} (h : Lockstep n) (s : Str) (P : Program) (k : Nat)
include h

theorem Lockstep.succ_atom (hs : s ≠ []) (hP : P ≠ []) (hn : 5 * s.length + 1 ≤ n + 1) :
    Agrees (fun a t => Wrote P (s.length - 1) a t ∧ t.flags.simple = t.re.simple.isSome)
      (regatom (n + 1) ⟨s, P, k⟩) (parseAtom (n + 1) k s) := by
  cases s with
  | nil => exact absurd rfl hs
  | cons c s =>
    simp only [regatom, parseAtom]
    split
    · refine (h.group s P k hP (by simp at hn; omega)).bind fun a t ha => ?_
      obtain ⟨⟨hsorted, rfl, hrest⟩, hsimple⟩ := ha
      exact .ok ⟨⟨hsorted, rfl, hrest⟩, by simp [hsimple]⟩
    · rename_i hparen
      refine (Agrees.of _).bind fun a b hab => ?_
      obtain ⟨rfl, ha⟩ := hab
      refine .ok ⟨⟨rfl, ?_, regleaf_rest hparen ha⟩, ?_⟩
      · simp [regnode, Re.code, Re.link]
      · cases hsimple : a.1.flags.simple <;> simp [Re.simple, hsimple]

theorem Lockstep.succ_piece (hs : s ≠ []) (hP : P ≠ []) (hn : 5 * s.length + 2 ≤ n + 1) :
    Agrees (Wrote P (s.length - 1)) (regpiece (n + 1) ⟨s, P, k⟩) (parsePiece (n + 1) k s) := by
  simp only [regpiece, parsePiece]
  refine (h.atom s P k hs hP (by omega)).bind fun a t ha => ?_
  obtain ⟨⟨hsorted, rfl, hrest⟩, hsimple⟩ := ha
  simp only
  split
  · exact .ok ⟨hsorted, rfl, hrest⟩
  · split
    · exact .error _
    · refine (Agrees.of _).bind fun a b hab => ?_
      obtain ⟨rfl, hcount⟩ := hab
      obtain ⟨min, max, u⟩ := a
      have hu : u.length ≤ s.length - 1 := (repCount_rest hcount).trans hrest
      have hwrote : ∀ (minimal : Bool) (v : Str) (Q : Program), v.length ≤ u.length →
          Q = P ++ (Re.repeated minimal min max t.re).code none →
          Wrote P (s.length - 1) (P.length, ⟨min ≠ 0, false, min = 0⟩, ⟨v, Q, t.re_nsub⟩)
            ⟨.repeated minimal min max t.re, ⟨min ≠ 0, false, min = 0⟩, t.re_nsub, v⟩ := by
        intro minimal v Q hv hQ
        exact ⟨hsorted.repeated _ _ _, by rw [hQ], hv.trans hu⟩
      have hprogram : ∀ minimal : Bool,
          (if t.flags.simple = true then
            P ++ (if minimal then opRepmin else opRep) :: 0 :: max :: min :: 0 :: t.re.code none
          else
            regtail (regtail (regnode (P ++ (if minimal then opRepxmin else opRepx) :: 0 :: max :: min :: 0 :: t.re.code none) opBack)
              (P ++ (if minimal then opRepxmin else opRepx) :: 0 :: max :: min :: 0 :: t.re.code none).length P.length)
              (P.length + 5)
              (P ++ (if minimal then opRepxmin else opRepx) :: 0 :: max :: min :: 0 :: t.re.code none).length) =
            P ++ (Re.repeated minimal min max t.re).code none := by
        intro minimal
        cases hleaf : t.re.simple with
        | some l =>
          have hrep : Re.repeated minimal min max t.re = .rep minimal min max l := by rw [Re.repeated, hleaf]
          rw [if_pos (by simp [hsimple, hleaf]), hrep, Re.eq_of_simple hleaf]
          simp [Re.code, Re.link]
        | none =>
          rw [if_neg (by simp [hsimple, hleaf]), regtail_repeated hsorted]
          simp [Re.repeated, hleaf, Re.code, Re.link]
      by_cases hmin : peek u.tail = '?'
      · simp only [hmin, if_true, decide_true, reginsert_append]
        split
        · exact .error _
        · refine .ok (hwrote true _ _ (by simp) ?_)
          have hminimal := hprogram true
          cases hflag : t.flags.simple <;> simp only [hflag, if_true, if_false, Bool.false_eq_true] at hminimal ⊢ <;>
            exact hminimal
      · simp only [hmin, if_false, decide_false, Bool.false_eq_true, reginsert_append]
        split
        · exact .error _
        · refine .ok (hwrote false _ _ (by simp) ?_)
          have hmaximal := hprogram false
          cases hflag : t.flags.simple <;> simp only [hflag, if_true, if_false, Bool.false_eq_true] at hmaximal ⊢ <;>
            exact hmaximal

theorem Lockstep.succ_pieces (f : Flags) (r : Option Re) (chain : Nat) (Q : Program) (hP : P ≠ []) (hr : Chained P r chain Q)
    (hn : 5 * s.length + 3 ≤ n + 1) :
    Agrees (fun a t => ∃ Q', Chained P t.1 a.1 Q' ∧ a.2 = (t.2.1, ⟨t.2.2.2, Q', t.2.2.1⟩) ∧ t.2.2.2.length ≤ s.length)
      (regpieces (n + 1) chain f ⟨s, Q, k⟩) (parsePieces (n + 1) r f k s) := by
  simp only [regpieces, parsePieces]
  split
  · exact .ok ⟨Q, hr, rfl, le_rfl⟩
  · rename_i hstop
    simp only [not_or] at hstop
    have hpos : 0 < s.length := List.length_pos_iff.mpr hstop.1
    cases r with
    | none =>
      obtain ⟨rfl, rfl⟩ := hr
      refine (h.piece s Q k hstop.1 hP (by omega)).bind fun a t ha => ?_
      obtain ⟨hsorted, rfl, hrest⟩ := ha
      have hnext := h.pieces t.rest Q t.re_nsub (f.andThen t.flags true) (some t.re) Q.length _ hP
        ⟨hsorted, rfl, Q, t.re, hP, rfl, hsorted, fun _ => rfl⟩ (by omega)
      refine hnext.mono fun a b hab => ?_
      obtain ⟨Q', hQ, heq, hlen⟩ := hab
      exact ⟨Q', hQ, heq, by omega⟩
    | some r =>
      obtain ⟨hr, rfl, P', q, hP', rfl, hq, hcode⟩ := hr
      refine (h.piece s (P ++ r.code none) k hstop.1 (by simp [hP]) (by omega)).bind fun a t ha => ?_
      obtain ⟨hsorted, rfl, hrest⟩ := ha
      have hchain : P'.length ≠ 0 := by simpa using hP'
      have htail : regtail (P ++ r.code none ++ t.re.code none) P'.length (P ++ r.code none).length =
          P ++ (Re.cat r t.re).code none := by
        have hlink := hq.regtail P' (t.re.code none) 0
        have hlen : (P' ++ q.code none).length = P'.length + (q.size + 0) := by simp
        rw [hcode none, hlen, List.append_assoc, hlink, ← List.append_assoc, ← hcode]
        simp [Re.code]
      have hnext := h.pieces t.rest P t.re_nsub (f.andThen t.flags false) (some (.cat r t.re)) (P ++ r.code none).length _ hP
        ⟨⟨rfl, hr, hsorted⟩, rfl, P ++ r.code (some 0), t.re, by simp [hP], by simp, hsorted, fun d => by simp [Re.code]⟩
        (by omega)
      simp only [htail, hchain, decide_false]
      refine hnext.mono fun a b hab => ?_
      obtain ⟨Q', hQ, heq, hlen⟩ := hab
      exact ⟨Q', hQ, heq, by omega⟩

theorem Lockstep.succ_branch (hn : 5 * s.length + 4 ≤ n + 1) :
    Agrees (fun a t => t.re.Sorted false ∧ t.rest.length ≤ s.length ∧
        a = (P.length, t.flags, ⟨t.rest, P ++ (Re.branch t.re).code none, t.re_nsub⟩))
      (regbranch (n + 1) ⟨s, P, k⟩) (parseBranch (n + 1) k s) := by
  simp only [regbranch, parseBranch]
  refine (h.pieces s (regnode P opBranch) k _ none 0 _ (by simp [regnode]) ⟨rfl, rfl⟩ (by omega)).bind fun a t ha => ?_
  obtain ⟨chain, flags, st⟩ := a
  obtain ⟨r, t⟩ := t
  obtain ⟨Q, hr, heq, hrest⟩ := ha
  cases heq
  cases r with
  | none =>
    obtain ⟨rfl, rfl⟩ := hr
    refine .ok ⟨rfl, hrest, ?_⟩
    simp [regnode, Re.code, Re.link]
  | some r =>
    obtain ⟨hr, rfl, P', q, hP', rfl, hq, hcode⟩ := hr
    have hchain : P'.length ≠ 0 := by simpa using hP'
    simp only [if_neg hchain]
    refine .ok ⟨hr, hrest, ?_⟩
    simp [regnode, Re.code, Re.link]

theorem Lockstep.succ_alts (r : Re) (f : Flags) (ret j : Nat) (hr : r.Sorted true) (hj : j ≤ P.length)
    (hret : ∀ Q, Leads (P ++ Q) j ret P.length) (hn : 5 * s.length + 4 ≤ n + 1) :
    Agrees (fun a t => t.re.Sorted true ∧ t.rest.length ≤ s.length ∧
        a = (t.flags, ⟨t.rest, P ++ t.re.code none, t.re_nsub⟩))
      (regalts (n + 1) ret f ⟨s, P ++ r.code none, k⟩) (parseAlts (n + 1) r f k s) := by
  simp only [regalts, parseAlts]
  split
  · rename_i hbar
    have hlen : s.tail.length + 1 = s.length := by
      cases s with
      | nil => exact absurd hbar (by decide)
      | cons c s => rfl
    refine (h.branch s.tail (P ++ r.code none) k (by omega)).bind fun a b hb => ?_
    obtain ⟨hsorted, hrest, rfl⟩ := hb
    have htail : regtail (P ++ r.code none ++ (Re.branch b.re).code none) ret (P ++ r.code none).length =
        P ++ (r.addAlt b.re).code none := by
      have hlink := hr.regtail_partly hj hret ((Re.branch b.re).code none)
      rw [← hr.partly_append]
      simpa using hlink
    have hnext := h.alts b.rest P b.re_nsub (r.addAlt b.re) (f.orElse b.flags) ret j (Re.Sorted.addAlt hsorted hr) hj hret (by omega)
    simp only [htail]
    exact hnext.mono fun a t hat => ⟨hat.1, by omega, hat.2.2⟩
  · exact .ok ⟨hr, le_rfl, rfl⟩

theorem Lockstep.succ_body (no : Int) (hno : -1 ≤ no) (hP : P ≠ []) (hn : 5 * s.length + 4 ≤ n) :
    Agrees (fun a t => Wrote P s.length a t ∧ t.re.simple = none)
      (do
        let (br, flags, st) ← regbranch n ⟨s, regnode P (opOpen + no), k⟩
        let (flags, st) ← regalts n P.length (Flags.orElse ⟨true, false, false⟩ flags)
          { st with program := regtail st.program P.length br }
        let Q := regtail (regnode st.program (opClose + no)) P.length st.program.length
        let Q := regoptails st.program.length Q.length Q P.length
        if peek st.regparse = ')' then .ok (P.length, flags, { st with regparse := st.regparse.tail, program := Q })
        else .error (some .UNMATCHED_PAREN))
      (do
        let b ← parseBranch n k s
        let a ← parseAlts n (.branch b.re) (Flags.orElse ⟨true, false, false⟩ b.flags) b.re_nsub b.rest
        if peek a.rest = ')' then .ok { a with re := .group no a.re, rest := a.rest.tail }
        else .error (some .UNMATCHED_PAREN)) := by
  have hopen : ∀ Q, Leads (P ++ [opOpen + no, 2] ++ Q) 1 P.length (P ++ [opOpen + no, 2]).length := by
    intro Q
    have hnext := regnext_link P (paren_ne hno).1 2 0 (by omega) Q
    refine .one ?_ (by simp)
    simpa [Re.link] using hnext
  refine (h.branch s (regnode P (opOpen + no)) k hn).bind fun a b hb => ?_
  obtain ⟨hbranch, hrest, rfl⟩ := hb
  have hfirst : regtail (regnode P (opOpen + no) ++ (Re.branch b.re).code none) P.length (regnode P (opOpen + no)).length =
      P ++ [opOpen + no, 2] ++ (Re.branch b.re).code none := by
    have hends := ends_here P (paren_ne hno).1 0 0 ((Re.branch b.re).code none)
    have hval : ((P.length + 2 : Nat) : Int) - ((P.length + 0 : Nat) : Int) = 2 := by omega
    have hlen : (regnode P (opOpen + no)).length = P.length + 2 := by simp [regnode]
    have htail := @regtail_of_ends _ _ _ _ (P.length + 2) hends (Nat.zero_le _)
    rw [hval] at htail
    rw [hlen]
    simpa [regnode, Re.link] using htail
  simp only [hfirst]
  refine (h.alts b.rest _ b.re_nsub (.branch b.re) _ P.length 1 ⟨rfl, hbranch⟩ (by simp) hopen (by omega)).bind fun a t ht => ?_
  obtain ⟨hsorted, hrest', rfl⟩ := ht
  simp only
  split
  · rename_i hclose
    refine .ok ⟨⟨⟨rfl, hno, hsorted⟩, ?_, ?_⟩, rfl⟩
    · have hlink := Re.Sorted.regtail_partly hsorted (by simp) hopen [opClose + no, 0]
      have hpre : P ++ [opOpen + no, 2] ≠ [] := by simp
      have hall := hsorted.regoptails_all hpre (paren_ne_branch hno).2 (show t.re.size < P.length + t.re.size + 3 by omega)
      have hender : (P ++ [opOpen + no, 2] ++ t.re.code none).length = (P ++ [opOpen + no, 2]).length + t.re.size := by
        simp
        omega
      have hnode : regnode (P ++ [opOpen + no, 2] ++ t.re.code none) (opClose + no) =
          P ++ [opOpen + no, 2] ++ (t.re.code none ++ [opClose + no, 0]) := by
        simp [regnode]
      have hlen : (P ++ [opOpen + no, 2] ++ (t.re.partly ++ [opClose + no, 0])).length = P.length + t.re.size + 3 + 1 := by
        simp
        omega
      have hop : word (P ++ [opOpen + no, 2] ++ (t.re.partly ++ [opClose + no, 0])) P.length ≠ opBranch := by
        have hhere := word_here P ([opOpen + no, 2] ++ (t.re.partly ++ [opClose + no, 0]))
        rw [List.append_assoc, hhere]
        exact (paren_ne_branch hno).1
      have hnext : regnext (P ++ [opOpen + no, 2] ++ (t.re.partly ++ [opClose + no, 0])) P.length =
          (P ++ [opOpen + no, 2]).length := by
        have hlink := regnext_link P (paren_ne hno).1 2 0 (by omega) (t.re.partly ++ [opClose + no, 0])
        simpa [Re.link] using hlink
      rw [hender, hnode, hlink, hlen, regoptails_skip _ _ (by simpa using hP) hop, hnext, hall]
      simp [Re.code, Re.link]
    · simp only [List.length_tail]
      omega
  · exact .error _

theorem Lockstep.succ_group (hP : P ≠ []) (hn : 5 * s.length + 5 ≤ n + 1) :
    Agrees (fun a t => Wrote P s.length a t ∧ t.re.simple = none) (reg (n + 1) true ⟨s, P, k⟩) (parseReg (n + 1) true k s) := by
  by_cases hnoncap : "?:".toList <+: s
  · have hbody := h.succ_body (s.drop 2) P k (-1) (by decide) hP (by simp; omega)
    simp only [reg, parseReg, hnoncap]
    have hrest := hbody.mono fun a t hat => (⟨hat.1.mono (by simp), hat.2⟩ : Wrote P s.length a t ∧ t.re.simple = none)
    simpa using hrest
  · have hbody := h.succ_body s P (k + 1) (k + 1) (by omega) hP (by omega)
    simp only [reg, parseReg, hnoncap]
    simpa using hbody

end

theorem lockstep : ∀ n, Lockstep n := by
  intro n
  induction n with
  | zero =>
    exact {
      group := fun s P k _ hn => absurd hn (by omega)
      alts := fun s P k r f ret j _ _ _ hn => absurd hn (by omega)
      branch := fun s P k hn => absurd hn (by omega)
      pieces := fun s P k f r chain Q _ _ hn => absurd hn (by omega)
      piece := fun s P k _ _ hn => absurd hn (by omega)
      atom := fun s P k _ _ hn => absurd hn (by omega) }
  | succ n ih =>
    exact {
      group := ih.succ_group
      alts := fun s P k r f ret j hr hj hret hn => ih.succ_alts s P k r f ret j hr hj hret hn
      branch := ih.succ_branch
      pieces := fun s P k f r chain Q hP hr hn => ih.succ_pieces s P k f r chain Q hP hr hn
      piece := ih.succ_piece
      atom := ih.succ_atom }

/-! ## The whole expression -/

theorem reg_parse (exp : Str) :
    Agrees (fun a t => t.re.Sorted true ∧
        a = (1, t.flags, ⟨[], regMagic :: (t.re.code (some 0) ++ [opEnd, 0]), t.re_nsub⟩))
      (reg (5 * exp.length + 5) false ⟨exp, [regMagic], 0⟩) (parse exp) := by
  have h := lockstep (5 * exp.length + 4)
  simp only [reg, parse, parseReg, Bool.false_eq_true, false_and, if_false]
  refine (h.branch exp [regMagic] 0 le_rfl).bind fun a b hb => ?_
  obtain ⟨hbranch, hrest, rfl⟩ := hb
  refine (h.alts b.rest [regMagic] b.re_nsub (.branch b.re) _ 1 0 ⟨rfl, hbranch⟩ (Nat.zero_le _) (fun Q => .here 1)
    (by omega)).bind fun a t ht => ?_
  obtain ⟨hsorted, hrest', rfl⟩ := ht
  have hlink : regtail ([regMagic] ++ (t.re.code none ++ [opEnd, 0])) 1 ([regMagic].length + t.re.size) =
      [regMagic] ++ (t.re.partly ++ [opEnd, 0]) :=
    hsorted.regtail_partly (Nat.zero_le _) (fun Q => .here 1) [opEnd, 0]
  have hall : regoptails ([regMagic].length + t.re.size) (t.re.size + 3) ([regMagic] ++ (t.re.partly ++ [opEnd, 0])) 1 =
      [regMagic] ++ (t.re.code (some 0) ++ [opEnd, 0]) :=
    hsorted.regoptails_all (List.cons_ne_nil _ _) (by decide) (by omega)
  have hender : ([regMagic] ++ t.re.code none).length = [regMagic].length + t.re.size := by
    simp
    omega
  have hnode : regnode ([regMagic] ++ t.re.code none) opEnd = [regMagic] ++ (t.re.code none ++ [opEnd, 0]) := by simp [regnode]
  have hlen : ([regMagic] ++ (t.re.partly ++ [opEnd, 0])).length = t.re.size + 3 := by simp
  simp only [List.length_singleton, hnode, hender] at hlink hall ⊢
  rw [hlink, hlen, hall]
  split
  · rename_i hrest
    rw [hrest]
    exact .ok ⟨hsorted, rfl⟩
  · split
    · exact .error _
    · exact .error _

theorem jimRegcomp_parse (exp : Str) :
    Agrees (fun R t => t.re.Sorted true ∧ R.re_nsub = t.re_nsub ∧
        R.program = regMagic :: (t.re.code (some 0) ++ [opEnd, 0]))
      (jimRegcomp exp)
      (do
        let t ← parse exp
        if regMaxParen ≤ t.re_nsub then .error (some .TOO_BIG) else .ok t) := by
  refine (reg_parse exp).bind fun a t ht => ?_
  obtain ⟨hsorted, rfl⟩ := ht
  simp only
  split
  · exact .error _
  · split
    · exact .ok ⟨hsorted, rfl, rfl⟩
    · exact .ok ⟨hsorted, rfl, rfl⟩

end Iamroot.Regexp
