import Iamroot.RegexpTree
import Iamroot.Regexec

/-!
# What the machine finds

What a tree matches, from one place of the text to another, and that the machine on the
layout of the tree finds a way through it exactly when there is one that what follows
can go on from. This holds as long as no complex repeat is in another, none is minimal,
and what they repeat captures: else the machine goes on with a count that is left from
before, or from where a failure has left the input.
-/

namespace Iamroot.Regexp

/-! ## Matches -/

def Times (R : Nat → Nat → Prop) : Nat → Nat → Nat → Prop
  | 0, i, j => i = j
  | n + 1, i, j => ∃ k, R i k ∧ Times R n k j

def inRanges (ranges : List CharRange) (c : Int) : Bool := ranges.any fun r => r.1 ≤ c && c ≤ r.2

def Leaf.ends (text : Str) : Leaf → Nat → Option Nat
  | bol, i | bolx, i => if i = 0 then some i else none
  | eol, i | eolx, i => if i = text.length then some i else none
  | worda, i =>
    if isWordChar (peek (text.drop i)) = true ∧ (0 < i → isWordChar (peek (text.drop (i - 1))) = false) then some i else none
  | wordz, i =>
    if 0 < i ∧ isWordChar (peek (text.drop i)) = false ∧ isWordChar (peek (text.drop (i - 1))) = true then some i else none
  | any, i => if i < text.length then some (i + 1) else none
  | set but ranges, i => if i < text.length ∧ inRanges ranges (peek (text.drop i)).toNat ≠ but then some (i + 1) else none
  | exactly cs, i => if cs <+: (text.drop i).map (fun c => (c.toNat : Int)) then some (i + cs.length) else none

def Re.Match (text : Str) : Re → Nat → Nat → Prop
  | leaf l, i, j => l.ends text i = some j
  | nothing, i, j => i = j
  | cat r s, i, j => ∃ k, r.Match text i k ∧ s.Match text k j
  | branch r, i, j => r.Match text i j
  | alt r s, i, j => r.Match text i j ∨ s.Match text i j
  | group _ r, i, j => r.Match text i j
  | rep _ min max l, i, j => ∃ n : Nat, min ≤ n ∧ n ≤ max ∧ Times (fun i j => l.ends text i = some j) n i j
  | repx _ min max _ r, i, j => ∃ n : Nat, min ≤ n ∧ n ≤ max ∧ Times (r.Match text) n i j

def Re.counts : Re → List Nat
  | cat r s => r.counts ++ s.counts.map (r.size + ·)
  | branch r => r.counts.map (2 + ·)
  | alt r s => r.counts.map (2 + ·) ++ s.counts.map (2 + r.size + ·)
  | group _ r => r.counts.map (2 + ·)
  | repx _ _ _ _ r => 4 :: r.counts.map (5 + ·)
  | _ => []

def Re.captures : Re → Bool
  | group no _ => 1 ≤ no
  | _ => false

/-- The operand has no 0 in it, which would end it, and a literal is not empty. -/
def Leaf.Plain (l : Leaf) : Prop := l.words.contains 0 = false ∧ l ≠ .exactly []

/-- No operand has a 0 in it, no repeat a negative count, as `a{-1}` has, and no complex repeat is minimal, in another
one, or repeats what does not capture. -/
def Re.Plain : Re → Prop
  | leaf l => l.Plain
  | nothing => True
  | cat r s => r.Plain ∧ s.Plain
  | branch r => r.Plain
  | alt r s => r.Plain ∧ s.Plain
  | group no r => (no = -1 ∨ 1 ≤ no ∧ no < regMaxParen) ∧ r.Plain
  | rep _ min max l => 0 ≤ min ∧ min ≤ max ∧ l.flags.simple = true ∧ l.Plain
  | repx minimal min max count r =>
    minimal = false ∧ 0 ≤ min ∧ min ≤ max ∧ count = 0 ∧ r.captures = true ∧ r.counts = [] ∧ r.Plain

/-! ## Places of the program -/

def At (P : Program) (p : Nat) (Q : Program) : Prop := Q <+: P.drop p

def Agree (S : Nat → Prop) (P P' : Program) : Prop := ∀ k, ¬ S k → P'[k]? = P[k]?

section
variable {P P' P'' A B Q : Program} {S T : Nat → Prop} {p n d : Nat} {a op : Int}

theorem At.append (h : At P p (A ++ B)) : At P p A ∧ At P (p + A.length) B := by
  obtain ⟨t, ht⟩ := h
  refine ⟨⟨B ++ t, by simpa using ht⟩, ⟨t, ?_⟩⟩
  rw [← List.drop_drop, ← ht]
  simp

theorem At.cons (h : At P p (a :: Q)) : word P p = a ∧ At P (p + 1) Q := by
  obtain ⟨t, ht⟩ := h
  refine ⟨?_, ⟨t, ?_⟩⟩
  · have hget : (P.drop p)[0]? = some a := by rw [← ht]; rfl
    rw [List.getElem?_drop, Nat.add_zero] at hget
    rw [word, List.getD_eq_getElem?_getD, hget]
    rfl
  · rw [← List.drop_drop, ← ht]
    rfl

theorem At.link (h : At P p (op :: Re.link n (some d) :: Q)) (hop : op ≠ opBack) (hn : 0 < n) : regnext P p = p + (n + d) := by
  have hword := h.cons.1
  have hnext := h.cons.2.cons.1
  have hlink : Re.link n (some d) = ((n + d : Nat) : Int) := rfl
  unfold regnext
  simp only [hword, hnext, if_neg hop, hlink]
  rw [if_neg (by omega)]
  omega

theorem At.agree (h : At P p Q) (hag : Agree S P P') (hS : ∀ k, k < Q.length → ¬ S (p + k)) : At P' p Q := by
  unfold At at h ⊢
  rw [List.prefix_iff_getElem?] at h ⊢
  intro k hk
  have hget := h k hk
  rw [List.getElem?_drop] at hget ⊢
  rw [hag _ (hS k hk), hget]

theorem Agree.refl : Agree S P P := fun _ _ => rfl

theorem Agree.mono (h : Agree S P P') (hST : ∀ k, S k → T k) : Agree T P P' := fun k hk => h k fun hS => hk (hST k hS)

theorem Agree.trans (h : Agree S P P') (h' : Agree S P' P'') : Agree S P P'' := fun k hk => (h' k hk).trans (h k hk)

theorem Agree.eq (h : Agree S P P') (hS : ∀ k, ¬ S k) : P' = P := List.ext_getElem? fun k => h k (hS k)

end

def Re.CountAt (r : Re) (p k : Nat) : Prop := ∃ c ∈ r.counts, k = p + c

theorem Re.counts_lt : ∀ {r : Re} {c : Nat}, c ∈ r.counts → c < r.size := by
  intro r
  induction r with
  | leaf | nothing | rep => simp [Re.counts]
  | cat r s ihr ihs =>
    intro c h
    simp only [Re.counts, List.mem_append, List.mem_map, Re.size] at h ⊢
    obtain h | ⟨x, hx, rfl⟩ := h
    · have := ihr h
      omega
    · have := ihs hx
      omega
  | alt r s ihr ihs =>
    intro c h
    simp only [Re.counts, List.mem_append, List.mem_map, Re.size] at h ⊢
    obtain ⟨x, hx, rfl⟩ | ⟨x, hx, rfl⟩ := h
    · have := ihr hx
      omega
    · have := ihs hx
      omega
  | branch r ih | group _ r ih =>
    intro c h
    simp only [Re.counts, List.mem_map, Re.size] at h ⊢
    obtain ⟨x, hx, rfl⟩ := h
    have := ih hx
    omega
  | repx _ _ _ _ r ih =>
    intro c h
    simp only [Re.counts, List.mem_cons, List.mem_map, Re.size] at h ⊢
    obtain rfl | ⟨x, hx, rfl⟩ := h
    · omega
    · have := ih hx
      omega

/-! ## What comes out with enough fuel -/

def EvalsTo (f : Nat → Tried) (r : Bool × RegState) : Prop := ∃ N, ∀ n, N ≤ n → f n = some r

/-- It succeeds if `b`, in a state that has `T`, and else fails in a state that has `Q`. -/
def Decides (T : RegState → Prop) (f : Nat → Tried) (b : Prop) (Q : RegState → Prop) : Prop :=
  ∃ r, EvalsTo f r ∧ (r.1 = true ∧ b ∧ T r.2 ∨ r.1 = false ∧ ¬ b ∧ Q r.2)

def RunAt (text : Str) (T : RegState → Prop) (P : Program) (p i : Nat) (b : Prop) : Prop :=
  Decides T (fun n => regmatch text n p ⟨P, i⟩) b (·.program = P)

section
variable {f g : Nat → Tried} {k : Nat → RegState → Tried} {r r' : Bool × RegState} {st : RegState} {b b' : Prop}
  {Q Q' T : RegState → Prop}

theorem EvalsTo.unique (h : EvalsTo f r) (h' : EvalsTo f r') : r = r' := by
  obtain ⟨N, hN⟩ := h
  obtain ⟨N', hN'⟩ := h'
  have heq := (hN (max N N') (le_max_left _ _)).symm.trans (hN' (max N N') (le_max_right _ _))
  exact Option.some.inj heq

theorem EvalsTo.succ (h : EvalsTo f r) (hg : ∀ n, g (n + 1) = f n) : EvalsTo g r := by
  obtain ⟨N, hN⟩ := h
  refine ⟨N + 1, fun n hn => ?_⟩
  cases n with
  | zero => exact absurd hn (by omega)
  | succ n =>
    rw [hg]
    exact hN n (by omega)

theorem EvalsTo.onFail (h : EvalsTo f (false, st)) (hk : EvalsTo (fun n => k n st) r) :
    EvalsTo (fun n => (f n).onFail (k n)) r := by
  obtain ⟨N, hN⟩ := h
  obtain ⟨N', hN'⟩ := hk
  refine ⟨max N N', fun n hn => ?_⟩
  simp only [hN n (by omega), Tried.onFail]
  exact hN' n (by omega)

theorem EvalsTo.onFail_true (h : EvalsTo f (true, st)) : EvalsTo (fun n => (f n).onFail (k n)) (true, st) := by
  obtain ⟨N, hN⟩ := h
  exact ⟨N, fun n hn => by simp only [hN n hn, Tried.onFail]⟩

theorem Decides.congr (h : Decides T f b Q) (hb : b ↔ b') : Decides T f b' Q := by
  obtain ⟨r, hr, ho⟩ := h
  exact ⟨r, hr, by rwa [← hb]⟩

theorem Decides.mono {R : RegState → Prop} (h : Decides T f b Q) (hQ : ∀ st, Q st → R st) : Decides T f b R := by
  obtain ⟨r, hr, ho⟩ := h
  exact ⟨r, hr, ho.imp id fun ho => ⟨ho.1, ho.2.1, hQ _ ho.2.2⟩⟩

theorem Decides.succ (h : Decides T f b Q) (hg : ∀ n, g (n + 1) = f n) : Decides T g b Q := by
  obtain ⟨r, hr, ho⟩ := h
  exact ⟨r, hr.succ hg, ho⟩

theorem Decides.congr_fun (h : Decides T f b Q) (hg : ∀ n, g n = f n) : Decides T g b Q := by
  obtain ⟨r, ⟨N, hN⟩, ho⟩ := h
  exact ⟨r, ⟨N, fun n hn => (hg n).trans (hN n hn)⟩, ho⟩

theorem Decides.fail {s : RegState} (hf : ∀ n, f (n + 1) = some (false, s)) (hb : ¬ b) (hQ : Q s) : Decides T f b Q := by
  have h : EvalsTo (fun _ => some (false, s)) (false, s) := ⟨0, fun _ _ => rfl⟩
  exact ⟨_, h.succ hf, .inr ⟨rfl, hb, hQ⟩⟩

theorem Decides.success {s : RegState} (hf : ∀ n, f (n + 1) = some (true, s)) (hb : b) (hT : T s) : Decides T f b Q := by
  have h : EvalsTo (fun _ => some (true, s)) (true, s) := ⟨0, fun _ _ => rfl⟩
  exact ⟨_, h.succ hf, .inl ⟨rfl, hb, hT⟩⟩

theorem Decides.onFail {c : Prop} {R : RegState → Prop} (h : Decides T f b Q)
    (hk : ∀ st, Q st → ¬ b → Decides T (fun n => k n st) c R) :
    Decides T (fun n => (f n).onFail (k n)) (b ∨ c) R := by
  obtain ⟨⟨b0, st⟩, hr, ho⟩ := h
  obtain ⟨hb0, hb, hT⟩ | ⟨hb0, hb, hQ⟩ := ho
  · cases hb0
    exact ⟨_, hr.onFail_true, .inl ⟨rfl, .inl hb, hT⟩⟩
  · cases hb0
    obtain ⟨r', hr', ho'⟩ := hk st hQ hb
    refine ⟨r', hr.onFail hr', ho'.imp (fun ho => ⟨ho.1, .inr ho.2.1, ho.2.2⟩) fun ho => ?_⟩
    exact ⟨ho.1, not_or.mpr ⟨hb, ho.2.1⟩, ho.2.2⟩

theorem Decides.not_of_false (h : Decides T f b Q) (hf : ∀ n, f (n + 1) = some (false, st)) : ¬ b := by
  obtain ⟨r, hr, ho⟩ := h
  have hfalse : EvalsTo (fun _ => some (false, st)) (false, st) := ⟨0, fun _ _ => rfl⟩
  have heq := hr.unique (hfalse.succ hf)
  obtain ⟨ht, -⟩ | ⟨-, hb, -⟩ := ho
  · rw [heq] at ht
    cases ht
  · exact hb

end

theorem Decides.tryEach {T : RegState → Prop} {F : Nat → Int → RegState → Tried} {b : Int → Prop} {P : Program} {ns : List Int}
    (h : ∀ m ∈ ns, ∀ st : RegState, st.program = P → Decides T (fun n => F n m st) (b m) (·.program = P)) :
    ∀ st : RegState, st.program = P → Decides T (fun n => Regexp.tryEach (F n) ns st) (∃ m ∈ ns, b m) (·.program = P) := by
  induction ns with
  | nil =>
    intro st hst
    exact .fail (s := st) (fun n => rfl) (by simp) hst
  | cons m ns ih =>
    intro st hst
    have hhead := h m (List.mem_cons_self ..) st hst
    have hstep := hhead.onFail (k := fun n => Regexp.tryEach (F n) ns) fun st' hst' _ =>
      ih (fun m' hm' => h m' (List.mem_cons_of_mem _ hm')) st' hst'
    exact hstep.congr (by simp)

/-! ## One node -/

theorem peek_drop {text : Str} (htext : nul ∉ text) (i : Nat) : peek (text.drop i) = nul ↔ text.length ≤ i := by
  constructor
  · intro h
    by_contra hi
    have hget : text.drop i = text[i] :: text.drop (i + 1) := List.drop_eq_getElem_cons (by omega)
    rw [hget] at h
    exact htext (h ▸ List.getElem_mem _)
  · intro h
    rw [List.drop_eq_nil_of_le h]
    rfl

theorem regRangeFind_words {ranges : List CharRange} (rest : List Int) (c : Int) :
    (Leaf.words (.set false ranges)).contains 0 = false →
      regRangeFind (Leaf.words (.set false ranges) ++ 0 :: rest) c = inRanges ranges c := by
  induction ranges with
  | nil =>
    intro _
    cases rest <;> simp [Leaf.words, regRangeFind, inRanges]
  | cons r ranges ih =>
    intro h
    have hsplit : Leaf.words (.set false (r :: ranges)) ++ 0 :: rest =
        (r.2 - r.1 + 1) :: r.1 :: (Leaf.words (.set false ranges) ++ 0 :: rest) := rfl
    have hne : r.2 - r.1 + 1 ≠ 0 ∧ (Leaf.words (.set false ranges)).contains 0 = false := by
      simp [Leaf.words] at h ⊢
      exact ⟨fun hr => h.1 hr.symm, h.2.2⟩
    have hupper : r.2 - r.1 + 1 + r.1 - 1 = r.2 := by omega
    rw [hsplit, regRangeFind, ih hne.2, hupper]
    simp [inRanges, hne.1]

theorem prefixCmp_eq : ∀ (ws : List Int) (s : Str),
    prefixCmp ws s = if ws <+: s.map (fun c => (c.toNat : Int)) then some ws.length else none
  | [], s => by simp [prefixCmp]
  | w :: ws, [] => by simp [prefixCmp]
  | w :: ws, c :: s => by
    rw [prefixCmp, prefixCmp_eq ws s]
    by_cases hc : (c.toNat : Int) = w
    · simp only [hc, ne_eq, not_true, if_false, List.map_cons, List.prefix_cons_inj, List.length_cons]
      split <;> rfl
    · have hne : ¬ w = (c.toNat : Int) := fun h => hc h.symm
      simp [hc, hne]

section
variable {text : Str} {l : Leaf} {P : Program} {p i n d : Nat}

theorem At.leaf (h : At P p ((Re.leaf l).code (some d))) :
    word P p = l.op ∧ regnext P p = p + ((Re.leaf l).size + d) ∧ At P (p + 2) l.opnd :=
  ⟨h.cons.1, h.link l.op_ne (by omega), h.cons.2.cons.2⟩

theorem At.strInts {ws : List Int} (h : At P p (ws ++ [0])) (hws : ws.contains 0 = false) : strInts P p = ws := by
  obtain ⟨t, ht⟩ := h
  have hne : ∀ w ∈ ws, decide (w ≠ 0) = true := by
    intro w hw
    simp only [List.contains_eq_mem, decide_eq_false_iff_not] at hws
    simpa using fun h : w = 0 => hws (h ▸ hw)
  rw [Regexp.strInts, ← ht, List.append_assoc, List.takeWhile_append_of_pos hne]
  simp

theorem regmatch_leaf (htext : nul ∉ text) (hi : i ≤ text.length) (hp : p ≠ 0) (h : At P p ((Re.leaf l).code (some d)))
    (hl : l.words.contains 0 = false) (n : Nat) :
    regmatch text (n + 1) p ⟨P, i⟩ =
      match l.ends text i with
      | some j => regmatch text n (p + ((Re.leaf l).size + d)) ⟨P, j⟩
      | none => some (false, ⟨P, i⟩) := by
  obtain ⟨hop, hnext, hopnd⟩ := h.leaf
  have hpeek := peek_drop htext i
  have hend : peek (text.drop i) = nul ↔ i = text.length := hpeek.trans ⟨fun h => by omega, fun h => h.ge⟩
  have hlt : i < text.length ↔ ¬ peek (text.drop i) = nul := by rw [hpeek]; omega
  cases l with
  | bol =>
    by_cases h0 : i = 0 <;> simp +decide [regmatch, hop, hnext, hp, Leaf.op, Leaf.ends, h0]
  | bolx =>
    by_cases h0 : i = 0 <;> simp +decide [regmatch, hop, hnext, hp, Leaf.op, Leaf.ends, h0]
  | eol =>
    by_cases h0 : peek (text.drop i) = nul <;> simp +decide [regmatch, hop, hnext, hp, Leaf.op, Leaf.ends, h0, ← hend]
  | eolx =>
    by_cases h0 : peek (text.drop i) = nul <;> simp +decide [regmatch, hop, hnext, hp, Leaf.op, Leaf.ends, h0, ← hend]
  | any =>
    by_cases h0 : peek (text.drop i) = nul <;> simp +decide [regmatch, hop, hnext, hp, Leaf.op, Leaf.ends, h0, hlt]
  | worda =>
    by_cases h0 : isWordChar (peek (text.drop i)) = true ∧ (0 < i → isWordChar (peek (text.drop (i - 1))) = false)
    · obtain ⟨hword, hprev⟩ := h0
      have hgo : ¬ (0 < i ∧ isWordChar (peek (text.drop (i - 1))) = true) := by simpa using hprev
      simp +decide only [regmatch, hop, hnext, hp, Leaf.op, Leaf.ends, hword, hgo, true_and, if_true, if_false]
      rw [if_pos hprev]
    · have hstop : isWordChar (peek (text.drop i)) = false ∨ 0 < i ∧ isWordChar (peek (text.drop (i - 1))) = true := by
        by_contra hgo
        exact h0 (by simpa using hgo)
      simp +decide only [regmatch, hop, hp, Leaf.op, Leaf.ends, if_neg h0, hstop, if_true, if_false]
  | wordz =>
    have hor : (peek (text.drop i) = nul ∨ isWordChar (peek (text.drop i)) = false) ↔ isWordChar (peek (text.drop i)) = false :=
      ⟨fun h => h.elim (fun h => h ▸ by decide) id, .inr⟩
    by_cases h0 : 0 < i ∧ isWordChar (peek (text.drop i)) = false ∧ isWordChar (peek (text.drop (i - 1))) = true
    · simp +decide [regmatch, hop, hnext, hp, Leaf.op, Leaf.ends, h0]
    · simp +decide [regmatch, hop, hp, Leaf.op, Leaf.ends, hor, h0]
  | set but ranges =>
    obtain ⟨t, ht⟩ := hopnd
    have hfind : ∀ c, regRangeFind (P.drop (p + 2)) c = inRanges ranges c := by
      intro c
      have hfound := regRangeFind_words t c hl
      rw [← ht]
      simpa [Leaf.opnd, Leaf.words] using hfound
    by_cases h0 : peek (text.drop i) = nul
    · cases but <;> simp +decide [regmatch, hop, hp, Leaf.op, Leaf.ends, h0, hlt]
    · cases but <;> cases hin : inRanges ranges (peek (text.drop i)).toNat <;>
        simp +decide [regmatch, hop, hnext, hp, Leaf.op, Leaf.ends, h0, hlt, hfind, hin]
  | exactly cs =>
    have hints := hopnd.strInts hl
    by_cases h0 : cs <+: (text.drop i).map fun c => (c.toNat : Int)
    · simp +decide only [regmatch, hop, hnext, hp, Leaf.op, Leaf.ends, hints, prefixCmp_eq, h0]
      simp +decide
    · simp +decide only [regmatch, hop, hp, Leaf.op, Leaf.ends, hints, prefixCmp_eq, h0]
      simp +decide

end

/-! ## Ways through a tree -/

theorem Leaf.ends_le {text : Str} {l : Leaf} {i j : Nat} (h : l.ends text i = some j) (hi : i ≤ text.length) :
    j ≤ text.length := by
  cases l with
  | exactly cs =>
    simp only [Leaf.ends] at h
    split at h
    · rename_i hpre
      cases h
      have hlen := hpre.length_le
      simp only [List.length_map, List.length_drop] at hlen
      omega
    · cases h
  | _ =>
    simp only [Leaf.ends] at h
    split at h <;> cases h
    all_goals omega

/-- What follows, at `q`, decides `K`, whatever the counts of the tree at `p` are. -/
def Follows (text : Str) (T : RegState → Prop) (r : Re) (P : Program) (p q : Nat) (K : Nat → Prop) : Prop :=
  ∀ P', Agree (r.CountAt p) P P' → ∀ j ≤ text.length, RunAt text T P' q j (K j)

/-- The machine decides whether there is a way through the tree that what follows can go on from. -/
def Re.Run (text : Str) (T : RegState → Prop) (r : Re) : Prop :=
  ∀ (P : Program) (p d : Nat) (K : Nat → Prop), p ≠ 0 → At P p (r.code (some d)) → Follows text T r P p (p + (r.size + d)) K →
    ∀ i ≤ text.length, RunAt text T P p i (∃ j, r.Match text i j ∧ K j)

def Re.RunAlts (text : Str) (T : RegState → Prop) (r : Re) : Prop :=
  ∀ (P : Program) (p d : Nat) (K : Nat → Prop), p ≠ 0 → At P p (r.code (some d)) →
    word P (p + (r.size + d)) ≠ opBranch → Follows text T r P p (p + (r.size + d)) K →
    ∀ i ≤ text.length, RunAt text T P p i (∃ j, r.Match text i j ∧ K j) ∧
      ∀ a, Decides T (fun n => regbranches (regmatch text (n + a)) n p ⟨P, i⟩) (∃ j, r.Match text i j ∧ K j) (·.program = P)

section
variable {text : Str} {r s : Re} {P : Program} {p q d i : Nat} {K : Nat → Prop} {f : Nat → Tried} {b : Prop}
  {Q T : RegState → Prop}

theorem Decides.shift (h : Decides T f b Q) (a : Nat) : Decides T (fun n => f (n + a)) b Q := by
  obtain ⟨r, ⟨N, hN⟩, ho⟩ := h
  exact ⟨r, ⟨N, fun n hn => hN (n + a) (by omega)⟩, ho⟩

theorem Follows.here (h : Follows text T r P p q K) (hi : i ≤ text.length) : RunAt text T P q i (K i) := h P .refl i hi

theorem Leaf.run (htext : nul ∉ text) {l : Leaf} (hl : l.words.contains 0 = false) : (Re.leaf l).Run text T := by
  intro P p d K hp hat hK i hi
  have hstep := regmatch_leaf htext hi hp hat hl
  cases hends : l.ends text i with
  | none =>
    simp only [hends] at hstep
    exact .fail hstep (by simp [Re.Match, hends]) rfl
  | some j =>
    simp only [hends] at hstep
    have hgo := (hK.here (Leaf.ends_le hends hi)).succ (g := fun n => regmatch text n p ⟨P, i⟩) hstep
    exact hgo.congr (by simp [Re.Match, hends])

theorem nothing_run : Re.nothing.Run text T := by
  intro P p d K hp hat hK i hi
  have hop := hat.cons.1
  have hnext := hat.link (by decide) (by decide)
  refine ((hK.here hi).succ fun n => ?_).congr (by simp [Re.Match])
  simp +decide [regmatch, hop, hnext, hp, Re.size]

theorem Re.Run.cat (hr : r.Run text T) (hs : s.Run text T) : (Re.cat r s).Run text T := by
  intro P p d K hp hat hK i hi
  obtain ⟨hatr, hats⟩ := At.append (A := r.code (some 0)) hat
  rw [length_code] at hats
  have hmid : Follows text T r P p (p + (r.size + 0)) fun k => ∃ j, s.Match text k j ∧ K j := by
    intro P' hag j hj
    have hats' : At P' (p + r.size) (s.code (some d)) := by
      refine hats.agree hag fun k hk ⟨c, hc, hkc⟩ => ?_
      have hlt := Re.counts_lt hc
      omega
    refine hs P' (p + r.size) d K (by omega) hats' (fun P'' hag' j hj => ?_) j hj
    have hagree : Agree ((Re.cat r s).CountAt p) P P'' := by
      refine (hag.mono ?_).trans (hag'.mono ?_)
      · exact fun k ⟨c, hc, hkc⟩ => ⟨c, List.mem_append_left _ hc, hkc⟩
      · exact fun k ⟨c, hc, hkc⟩ => ⟨r.size + c, List.mem_append_right _ (List.mem_map_of_mem hc), by omega⟩
    have hrun := hK P'' hagree j hj
    rwa [Re.size, Nat.add_assoc, ← Nat.add_assoc] at hrun
  refine (hr P p 0 _ hp hatr hmid i hi).congr ?_
  constructor
  · rintro ⟨k, hk, j, hj, hKj⟩
    exact ⟨j, ⟨k, hk, hj⟩, hKj⟩
  · rintro ⟨j, ⟨k, hk, hj⟩, hKj⟩
    exact ⟨k, hk, j, hj, hKj⟩

/-- The node in front of what is at `p + n` changes nothing about what follows. -/
theorem Follows.inner {n m : Nat} (h : Follows text T s P p q K) (hc : ∀ c ∈ r.counts, n + c ∈ s.counts) (hq : q = m) :
    Follows text T r P (p + n) m K := by
  intro P' hag j hj
  refine hq ▸ h P' (hag.mono ?_) j hj
  exact fun k ⟨c, hcr, hk⟩ => ⟨n + c, hc c hcr, by omega⟩

theorem Re.Run.branch (hr : r.Run text T) : (Re.branch r).RunAlts text T := by
  intro P p d K hp hat hq hK i hi
  have hop := hat.cons.1
  have hnext := hat.link (by decide) (by omega)
  have hbody := hr P (p + 2) d K (by omega) hat.cons.2.cons.2
    (hK.inner (n := 2) (fun c hc => List.mem_map_of_mem hc) (by simp only [Re.size]; omega)) i hi
  have hq' : word P (p + (2 + r.size + d)) ≠ opBranch := hq
  refine ⟨hbody.succ fun n => ?_, fun a => ?_⟩
  · simp +decide [regmatch, hop, hnext, hp, hq']
  · have hfail := (hbody.shift (a + 1)).onFail (c := False)
      (k := fun n st' =>
        let st : RegState := { st' with reginput := i }
        let scan := regnext st.program p
        if scan ≠ 0 ∧ word st.program scan = opBranch then regbranches (regmatch text (n + (a + 1))) n scan st else some (false, st))
      (R := (·.program = P)) fun st' hst _ => by
        refine .fail (s := { st' with reginput := i }) (fun n => ?_) id hst
        simp only [hst, hnext, hq', and_false, if_false]
    refine (hfail.succ fun n => ?_).congr (or_iff_left id)
    rw [regbranches, Nat.add_right_comm]
    rfl

theorem Re.Sorted.first : ∀ {s : Re}, s.Sorted true → ∀ d, ∃ A, s.code d = opBranch :: A := by
  intro s h d
  cases s with
  | branch r => exact ⟨_, rfl⟩
  | alt r s => exact ⟨_, rfl⟩
  | _ => simp [Re.Sorted] at h

theorem Re.RunAlts.alt (hr : r.Run text T) (hs : s.RunAlts text T) (hsorted : s.Sorted true) : (Re.alt r s).RunAlts text T := by
  intro P p d K hp hat hq hK i hi
  have hop := hat.cons.1
  have hnext : regnext P p = p + (2 + r.size + 0) := At.link (n := 2 + r.size) (d := 0) hat (by decide) (by omega)
  obtain ⟨hatr, hats⟩ := At.append (A := r.code (some (s.size + d))) hat.cons.2.cons.2
  have hplace : p + 1 + 1 + (r.code (some (s.size + d))).length = p + (2 + r.size) := by
    rw [length_code]
    omega
  rw [hplace] at hats
  have hbranch : word P (p + (2 + r.size + 0)) = opBranch := by
    obtain ⟨A, hA⟩ := hsorted.first (some d)
    exact (hA ▸ hats).cons.1
  have hend : p + (2 + r.size) + (s.size + d) = p + ((Re.alt r s).size + d) := by
    simp only [Re.size]
    omega
  have hfirst := hr P (p + 2) (s.size + d) K (by omega) hatr
    (hK.inner (n := 2) (fun c hc => List.mem_append_left _ (List.mem_map_of_mem hc)) (by simp only [Re.size]; omega)) i hi
  have hrest := hs P (p + (2 + r.size)) d K (by omega) hats (by rwa [hend])
    (hK.inner (n := 2 + r.size) (fun c hc => List.mem_append_right _ (List.mem_map_of_mem hc)) hend.symm) i hi
  have hways : (∃ j, r.Match text i j ∧ K j) ∨ (∃ j, s.Match text i j ∧ K j) ↔ ∃ j, (Re.alt r s).Match text i j ∧ K j := by
    simp only [Re.Match, or_and_right, exists_or]
  have hall : ∀ a, Decides T (fun n => regbranches (regmatch text (n + a)) n p ⟨P, i⟩)
      (∃ j, (Re.alt r s).Match text i j ∧ K j) (·.program = P) := by
    intro a
    have hstep := (hfirst.shift (a + 1)).onFail (c := ∃ j, s.Match text i j ∧ K j)
      (k := fun n st' =>
        let st : RegState := { st' with reginput := i }
        let scan := regnext st.program p
        if scan ≠ 0 ∧ word st.program scan = opBranch then regbranches (regmatch text (n + (a + 1))) n scan st else some (false, st))
      (R := (·.program = P)) fun st' hst _ => by
        obtain ⟨P', i'⟩ := st'
        cases hst
        refine (hrest.2 (a + 1)).congr_fun fun n => ?_
        simp only [hnext, hbranch, and_true]
        rw [if_pos (by omega)]
        rfl
    refine (hstep.succ fun n => ?_).congr hways
    rw [regbranches, Nat.add_right_comm]
    rfl
  refine ⟨(hall 0).succ fun n => ?_, hall⟩
  rw [Nat.add_zero] at hbranch
  simp +decide [regmatch, hop, hnext, hp, hbranch]

def IsParen (op : Int) : Prop := op = opOpen - 1 ∨ op = opClose - 1 ∨ opOpen < op ∧ op < opClose + regMaxParen

theorem isParen {no : Int} (hno : no = -1 ∨ 1 ≤ no ∧ no < regMaxParen) : IsParen (opOpen + no) ∧ IsParen (opClose + no) := by
  change (1001 + no = 1001 - 1 ∨ 1001 + no = 2001 - 1 ∨ 1001 < 1001 + no ∧ 1001 + no < 2001 + (100 : Int)) ∧
    (2001 + no = 1001 - 1 ∨ 2001 + no = 2001 - 1 ∨ 1001 < 2001 + no ∧ 2001 + no < 2001 + (100 : Int))
  change no = -1 ∨ 1 ≤ no ∧ no < (100 : Int) at hno
  omega

theorem regmatch_paren (text : Str) {op : Int} (hop : IsParen op) (hp : p ≠ 0) (hword : word P p = op)
    (hnext : regnext P p = q) (n : Nat) :
    regmatch text (n + 1) p ⟨P, i⟩ =
      if op = opOpen - 1 ∨ op = opClose - 1 then regmatch text n q ⟨P, i⟩
      else (regmatch text n q ⟨P, i⟩).onFail fun st' => some (false, { st' with reginput := i }) := by
  have hlarge : 1000 ≤ op := by
    change op = 1001 - 1 ∨ op = 2001 - 1 ∨ 1001 < op ∧ op < 2001 + (100 : Int) at hop
    omega
  have hne : ∀ k : Int, k < 1000 → ¬ op = k := fun k hk h => by omega
  simp only [regmatch, hword, hnext, hp, if_false, hne opBol (by decide), hne opBolx (by decide), hne opEol (by decide),
    hne opEolx (by decide), hne opWorda (by decide), hne opWordz (by decide), hne opAny (by decide),
    hne opExactly (by decide), hne opAnyof (by decide), hne opAnybut (by decide), hne opNothing (by decide),
    hne opBack (by decide), hne opBranch (by decide), hne opRep (by decide), hne opRepmin (by decide),
    hne opRepx (by decide), hne opRepxmin (by decide), hne opEnd (by decide), or_self]
  by_cases hnc : op = opOpen - 1 ∨ op = opClose - 1
  · rw [if_pos hnc, if_pos hnc]
  · rw [if_neg hnc, if_neg hnc, if_pos ((or_assoc.mpr hop).resolve_left hnc)]

theorem paren_run {op : Int} (hop : IsParen op) (hp : p ≠ 0) (hword : word P p = op) (hnext : regnext P p = q)
    (h : RunAt text T P q i b) : RunAt text T P p i b := by
  have hmatch := regmatch_paren text (i := i) hop hp hword hnext
  by_cases hnc : op = opOpen - 1 ∨ op = opClose - 1
  · simp only [if_pos hnc] at hmatch
    exact h.succ hmatch
  · simp only [if_neg hnc] at hmatch
    have hfail := h.onFail (c := False) (R := (·.program = P))
      (k := fun _ st' => some (false, ({ st' with reginput := i } : RegState)))
      fun st' hst _ => .fail (fun _ => rfl) id hst
    exact (hfail.succ hmatch).congr (by rw [or_false])

theorem Re.captures_back (hr : r.captures = true) (hplain : r.Plain) (hp : p ≠ 0) (hat : At P p (r.code (some d)))
    (h : RunAt text T P p i b) : Decides T (fun n => regmatch text n p ⟨P, i⟩) b (· = ⟨P, i⟩) := by
  cases r with
  | group no r =>
    have hno : 1 ≤ no := by simpa [Re.captures] using hr
    have hnc : ¬ (opOpen + no = opOpen - 1 ∨ opOpen + no = opClose - 1) := by
      have hmax := hplain.1
      change no = -1 ∨ 1 ≤ no ∧ no < (100 : Int) at hmax
      change ¬ (1001 + no = 1001 - 1 ∨ 1001 + no = 2001 - 1)
      omega
    have hmatch := regmatch_paren text (i := i) (isParen hplain.1).1 hp hat.cons.1 (q := regnext P p) rfl
    simp only [if_neg hnc] at hmatch
    obtain ⟨⟨b0, st⟩, ⟨N, hN⟩, ho⟩ := h
    refine ⟨_, ⟨N, hN⟩, ho.imp id fun ⟨hb0, hb, hst⟩ => ⟨hb0, hb, ?_⟩⟩
    have hrun := (hmatch N).symm.trans (hN (N + 1) (Nat.le_succ N))
    cases hb0
    cases hinner : regmatch text N (regnext P p) ⟨P, i⟩ with
    | none =>
      rw [hinner] at hrun
      cases hrun
    | some inner =>
      obtain ⟨b1, st1⟩ := inner
      rw [hinner] at hrun
      cases b1 <;> cases hrun
      cases hst
      rfl
  | _ => cases hr

theorem Re.RunAlts.group {no : Int} (hno : no = -1 ∨ 1 ≤ no ∧ no < regMaxParen) (hr : r.RunAlts text T) :
    (Re.group no r).Run text T := by
  intro P p d K hp hat hK i hi
  have hop := hat.cons.1
  obtain ⟨hopen, hclose⟩ := isParen hno
  have hmin : -1 ≤ no := by omega
  have hnext : regnext P p = p + (2 + 0) := At.link (n := 2) (d := 0) hat (paren_ne hmin).1 (by omega)
  obtain ⟨hatr, hatc⟩ := At.append (A := r.code (some 0)) hat.cons.2.cons.2
  have hplace : p + 1 + 1 + (r.code (some 0)).length = p + 2 + (r.size + 0) := by
    rw [length_code]
    omega
  rw [hplace] at hatc
  have hfollows : Follows text T r P (p + 2) (p + 2 + (r.size + 0)) K := by
    intro P' hag j hj
    have hatc' : At P' (p + 2 + (r.size + 0)) [opClose + no, Re.link 2 (some d)] := by
      refine hatc.agree hag fun k hk ⟨c, hc, hkc⟩ => ?_
      have hlt := Re.counts_lt hc
      omega
    have hagree : Agree ((Re.group no r).CountAt p) P P' :=
      hag.mono fun k ⟨c, hc, hk⟩ => ⟨2 + c, List.mem_map_of_mem hc, by omega⟩
    refine paren_run hclose (by omega) hatc'.cons.1 (hatc'.link (paren_ne hmin).2 (by omega)) ?_
    have hrun := hK P' hagree j hj
    have hq : p + ((Re.group no r).size + d) = p + 2 + (r.size + 0) + (2 + d) := by
      simp only [Re.size]
      omega
    rwa [hq] at hrun
  have hbranch : word P (p + 2 + (r.size + 0)) ≠ opBranch := by
    rw [hatc.cons.1]
    exact (paren_ne_branch hmin).2
  exact paren_run hopen hp hop hnext (hr P (p + 2) 0 K (by omega) hatr hbranch hfollows i hi).1

end

/-! ## Simple repeats -/

section
variable {text : Str} {l : Leaf} {P : Program} {p q i : Nat} {f : Int → Bool} {T : RegState → Prop}

theorem regrepeat_le (f : Int → Bool) : ∀ (max : Int) (s : Str), regrepeat f max s ≤ s.length
  | _, [] => Nat.le_refl 0
  | max, c :: s => by
    rw [regrepeat]
    split
    · exact Nat.succ_le_succ (regrepeat_le f (max - 1) s)
    · exact Nat.zero_le _

theorem Leaf.ends_simple (hsimple : l.flags.simple = true) (hl : l.words.contains 0 = false)
    (hat : At P q (l.op :: 0 :: l.opnd)) (i : Nat) :
    l.ends text i = if i < text.length ∧ takes P q (peek (text.drop i)).toNat = true then some (i + 1) else none := by
  have hop := hat.cons.1
  have hopnd := hat.cons.2.cons.2
  cases l with
  | any => simp +decide [takes, hop, Leaf.ends, Leaf.op]
  | set but ranges =>
    obtain ⟨t, ht⟩ := hopnd
    have hfind : ∀ c, regRangeFind (P.drop (q + 2)) c = inRanges ranges c := by
      intro c
      have hfound := regRangeFind_words t c hl
      rw [← ht]
      simpa [Leaf.opnd, Leaf.words] using hfound
    cases but <;> simp +decide [takes, hop, Leaf.ends, Leaf.op, hfind]
  | exactly cs =>
    have hlen : cs.length = 1 := by simpa [Leaf.flags] using hsimple
    obtain ⟨w, rfl⟩ := List.length_eq_one_iff.mp hlen
    have hw : word P (q + 2) = w := hopnd.cons.1
    by_cases hi : i < text.length
    · have hdrop : text.drop i = text[i] :: text.drop (i + 1) := List.drop_eq_getElem_cons hi
      have hpeek : peek (text.drop i) = text[i] := by rw [hdrop]; rfl
      have htakes : takes P q (text[i].toNat) = decide (w = (text[i].toNat : Int)) := by
        simp +decide [takes, hop, Leaf.op, hw]
      rw [hpeek, htakes]
      simp only [Leaf.ends, hdrop, List.map_cons, List.cons_prefix_cons, List.nil_prefix, and_true, hi, true_and,
        decide_eq_true_eq, List.length_singleton]
    · have hdrop : text.drop i = [] := List.drop_eq_nil_of_le (by omega)
      simp [Leaf.ends, hi, hdrop]
  | _ => cases hsimple

theorem times_iff (hends : ∀ i, l.ends text i = if i < text.length ∧ f (peek (text.drop i)).toNat = true then some (i + 1) else none) :
    ∀ (n i j : Nat) (max : Int), 0 ≤ max →
      ((n : Int) ≤ max ∧ Times (fun i j => l.ends text i = some j) n i j ↔ n ≤ regrepeat f max (text.drop i) ∧ j = i + n)
  | 0, i, j, max, hmax => by simp [Times, hmax, eq_comm]
  | n + 1, i, j, max, hmax => by
    have ih := times_iff hends n (i + 1) j (max - 1)
    by_cases hi : i < text.length
    · have hdrop : text.drop i = text[i] :: text.drop (i + 1) := List.drop_eq_getElem_cons hi
      have hpeek : peek (text.drop i) = text[i] := by rw [hdrop]; rfl
      rw [hdrop, regrepeat]
      by_cases hf : f (text[i].toNat) = true
      · have hnext : l.ends text i = some (i + 1) := by rw [hends, hpeek, if_pos ⟨hi, hf⟩]
        by_cases hpos : 0 < max
        · have hiff := ih (by omega)
          rw [if_pos ⟨hpos, hf⟩]
          simp only [Times, hnext, Option.some.injEq, exists_eq_left']
          constructor
          · intro ⟨hn, ht⟩
            have := hiff.mp ⟨by omega, ht⟩
            omega
          · intro ⟨hn, hj⟩
            have := hiff.mpr ⟨by omega, by omega⟩
            exact ⟨by omega, this.2⟩
        · rw [if_neg fun h => hpos h.1]
          constructor
          · intro ⟨hn, _⟩
            omega
          · intro ⟨hn, _⟩
            omega
      · have hnone : l.ends text i = none := by rw [hends, hpeek, if_neg fun h => hf h.2]
        rw [if_neg fun h => hf h.2]
        simp [Times, hnone]
    · have hnone : l.ends text i = none := by rw [hends, if_neg fun h => hi h.1]
      have hdrop : text.drop i = [] := List.drop_eq_nil_of_le (by omega)
      simp [Times, hnone, hdrop, regrepeat]

theorem mem_repeatCounts {minimal : Bool} {min no m : Int} : m ∈ repeatCounts minimal min no ↔ min ≤ m ∧ m ≤ no := by
  have hup : m ∈ repeatCounts true min no ↔ min ≤ m ∧ m ≤ no := by
    unfold repeatCounts
    simp only [if_true, List.mem_map, List.bind_eq_flatMap, List.pure_def, List.mem_flatMap, List.mem_range, List.mem_singleton]
    constructor
    · intro h
      obtain ⟨_, ⟨a, ha, rfl⟩, rfl⟩ := h
      omega
    · intro h
      exact ⟨_, ⟨(m - min).toNat, by omega, rfl⟩, by omega⟩
  cases minimal with
  | true => exact hup
  | false => exact List.mem_reverse.trans hup

theorem strInts_cons (h : word P p ≠ 0) : ∃ ws, strInts P p = word P p :: ws := by
  have hlt : p < P.length := by
    by_contra hp
    rw [word, List.getD_eq_getElem?_getD, List.getElem?_eq_none (by omega)] at h
    exact h rfl
  have hdrop : P.drop p = P[p] :: P.drop (p + 1) := List.drop_eq_getElem_cons hlt
  have hword : word P p = P[p] := by rw [word, List.getD_eq_getElem?_getD, List.getElem?_eq_getElem hlt, Option.getD_some]
  rw [hword] at h ⊢
  rw [strInts, hdrop, List.takeWhile_cons_of_pos (by simpa using h)]
  exact ⟨_, rfl⟩

theorem lookahead_fails (hq : q ≠ 0) (hop : word P q = opExactly) (hw : word P (q + 2) ≠ 0)
    (hc : ¬ ((peek (text.drop i)).toNat : Int) = word P (q + 2)) (n : Nat) :
    regmatch text (n + 1) q ⟨P, i⟩ = some (false, ⟨P, i⟩) := by
  obtain ⟨ws, hws⟩ := strInts_cons hw
  have hcmp : prefixCmp (strInts P (q + 2)) (text.drop i) = none := by
    rw [hws]
    cases hdrop : text.drop i with
    | nil => rfl
    | cons c s =>
      rw [hdrop] at hc
      have hne : (c.toNat : Int) ≠ word P (q + 2) := hc
      rw [prefixCmp, if_pos hne]
  simp +decide [regmatch, hop, hq, hcmp]

theorem rep_run {minimal : Bool} {min max : Int} (hmin : 0 ≤ min) (hmax : min ≤ max)
    (hsimple : l.flags.simple = true) (hl : l.words.contains 0 = false) : (Re.rep minimal min max l).Run text T := by
  intro P p d K hp hat hK i hi
  have hnext := hat.link (minimal_ne minimal).1 (by omega)
  have hop := hat.cons.1
  have hargs := hat.cons.2.cons.2
  have hwmax : word P (p + 2) = max := hargs.cons.1
  have hwmin : word P (p + 3) = min := hargs.cons.2.cons.1
  have hbody : At P (p + 5) (l.op :: 0 :: l.opnd) := hargs.cons.2.cons.2.cons.2
  have hends : ∀ i, l.ends text i = _ := Leaf.ends_simple hsimple hl hbody
  have htimes := fun n j => times_iff hends n i j max (by omega)
  have hle := regrepeat_le (takes P (p + 5)) max (text.drop i)
  rw [List.length_drop] at hle
  have hq : p + ((Re.rep minimal min max l).size + d) = p + (7 + l.opnd.length + d) := rfl
  rw [hq] at hK
  have hways : (∃ m ∈ repeatCounts minimal min (regrepeat (takes P (p + 5)) max (text.drop i)), K ((i : Int) + m).toNat) ↔
      ∃ j, (Re.rep minimal min max l).Match text i j ∧ K j := by
    constructor
    · intro ⟨m, hm, hKm⟩
      rw [mem_repeatCounts] at hm
      obtain ⟨n, rfl⟩ := Int.eq_ofNat_of_zero_le (show 0 ≤ m by omega)
      have ht := (htimes n (i + n)).mpr ⟨by omega, rfl⟩
      have hin : ((i : Int) + (n : Int)).toNat = i + n := by omega
      exact ⟨i + n, ⟨n, hm.1, ht.1, ht.2⟩, hin ▸ hKm⟩
    · intro ⟨j, ⟨n, hn, hnmax, ht⟩, hKj⟩
      obtain ⟨hno, rfl⟩ := (htimes n j).mp ⟨hnmax, ht⟩
      have hin : ((i : Int) + (n : Int)).toNat = i + n := by omega
      exact ⟨n, mem_repeatCounts.mpr ⟨hn, by omega⟩, hin ▸ hKj⟩
  refine (Decides.succ (f := fun n => regmatchsimplerepeat text (regmatch text n) p minimal ⟨P, i⟩) ?_ fun n => ?_).congr hways
  · simp only [regmatchsimplerepeat, hnext, hwmax, hwmin]
    by_cases hfew : (regrepeat (takes P (p + 5)) max (text.drop i) : Int) < min
    · simp only [if_pos hfew]
      refine .fail (fun _ => rfl) (fun ⟨m, hm, _⟩ => ?_) rfl
      have hm' := mem_repeatCounts.mp hm
      omega
    · simp only [if_neg hfew]
      refine Decides.tryEach (fun m hm st' hst => ?_) ⟨P, i⟩ rfl
      obtain ⟨P', i'⟩ := st'
      cases hst
      have hm' := mem_repeatCounts.mp hm
      have hhere := hK.here (i := ((i : Int) + m).toNat) (by omega)
      have hnextch : ∀ nextch, (if word P' (p + (7 + l.opnd.length + d)) = opExactly then
            word P' (p + (7 + l.opnd.length + d) + 2) else 0) = nextch → nextch ≠ 0 →
          word P' (p + (7 + l.opnd.length + d)) = opExactly ∧ word P' (p + (7 + l.opnd.length + d) + 2) = nextch := by
        intro nextch hnext hne
        split at hnext
        · exact ⟨‹_›, hnext⟩
        · exact absurd hnext.symm hne
      simp only
      generalize hw : (if word P' (p + (7 + l.opnd.length + d)) = opExactly then
        word P' (p + (7 + l.opnd.length + d) + 2) else 0) = nextch
      split
      · exact hhere
      · rename_i hskip
        rw [not_or] at hskip
        obtain ⟨hexactly, hword⟩ := hnextch nextch hw hskip.1
        subst hword
        exact .fail (fun _ => rfl) (hhere.not_of_false (lookahead_fails (by omega) hexactly hskip.1 hskip.2)) rfl
  · cases minimal <;> simp +decide [regmatch, hop, hp]

end

/-! ## Complex repeats -/

section
variable {text : Str} {r : Re} {P A B : Program} {p d i : Nat} {K : Nat → Prop} {min max c a : Int} {T : RegState → Prop}

theorem At.set (h : At P p (A ++ a :: B)) (c : Int) : At (P.set (p + A.length) c) p (A ++ c :: B) := by
  obtain ⟨t, ht⟩ := h
  refine ⟨t, ?_⟩
  rw [List.drop_set, if_neg (by omega), ← ht, Nat.add_sub_cancel_left]
  simp

theorem At.set_self (h : At P p (A ++ a :: B)) : P.set (p + A.length) a = P := by
  have hget := (At.append h).2.cons.1
  refine List.ext_getElem? fun k => ?_
  rw [List.getElem?_set]
  split
  · rename_i hk
    subst hk
    split
    · rename_i hlt
      rw [List.getElem?_eq_getElem hlt]
      rw [word, List.getD_eq_getElem?_getD, List.getElem?_eq_getElem hlt, Option.getD_some] at hget
      rw [hget]
    · rename_i hlt
      rw [List.getElem?_eq_none (by omega)]
  · rfl

def Again (R : Nat → Nat → Prop) (min max : Int) (K : Nat → Prop) (c : Int) (i : Nat) : Prop :=
  ∃ (n : Nat) (j : Nat), min ≤ c + n ∧ c + n ≤ max ∧ Times R n i j ∧ K j

theorem again_iff {R : Nat → Nat → Prop} :
    Again R min max K c i ↔ (∃ k, R i k ∧ Again R min max K (c + 1) k) ∨ min ≤ c ∧ c ≤ max ∧ K i := by
  constructor
  · intro ⟨n, j, hn, hmax, ht, hK⟩
    cases n with
    | zero => exact .inr ⟨by omega, by omega, ht ▸ hK⟩
    | succ n =>
      obtain ⟨k, hk, ht⟩ := ht
      exact .inl ⟨k, hk, n, j, by omega, by omega, ht, hK⟩
  · intro h
    obtain ⟨k, hk, n, j, hn, hmax, ht, hK⟩ | ⟨hmin, hmax, hK⟩ := h
    · exact ⟨n + 1, j, by omega, by omega, ⟨k, hk, ht⟩, hK⟩
    · exact ⟨0, i, by omega, by omega, rfl, hK⟩

theorem not_again {R : Nat → Nat → Prop} (h : max < c) : ¬ Again R min max K c i := by
  intro ⟨n, j, hn, hmax, _⟩
  omega

theorem Re.Run.repx (hr : r.Run text T) (hplain : r.Plain) (hcaptures : r.captures = true) (hcounts : r.counts = [])
    (hmin : 0 ≤ min) (hmax : min ≤ max) : (Re.repx false min max 0 r).Run text T := by
  intro P p d K hp hat hK i hi
  have hset : ∀ c, At (P.set (p + 4) c) p
      (opRepx :: Re.link (7 + r.size) (some d) :: max :: min :: c :: (r.code (some 0) ++ [opBack, ((5 + r.size : Nat) : Int)])) :=
    At.set (A := [opRepx, Re.link (7 + r.size) (some d), max, min]) hat
  have hzero : P.set (p + 4) 0 = P := At.set_self (A := [opRepx, Re.link (7 + r.size) (some d), max, min]) hat
  have hstep : ∀ c, c ≤ max →
      (c < max → ∀ i ≤ text.length, RunAt text T (P.set (p + 4) (c + 1)) p i (Again (r.Match text) min max K (c + 1) i)) →
      ∀ i ≤ text.length, RunAt text T (P.set (p + 4) c) p i (Again (r.Match text) min max K c i) := by
    intro c hcmax ih i hi
    have hatc := hset c
    have hop := hatc.cons.1
    have hwmax : word (P.set (p + 4) c) (p + 2) = max := hatc.cons.2.cons.2.cons.1
    have hwmin : word (P.set (p + 4) c) (p + 3) = min := hatc.cons.2.cons.2.cons.2.cons.1
    have hwc : word (P.set (p + 4) c) (p + 4) = c := hatc.cons.2.cons.2.cons.2.cons.2.cons.1
    have hnext : regnext (P.set (p + 4) c) p = p + (7 + r.size + d) := hatc.link (by decide) (by omega)
    have hexit : RunAt text T (P.set (p + 4) c) (p + (7 + r.size + d)) i (K i) := by
      refine hK _ (fun k hk => ?_) i hi
      rw [List.getElem?_set_ne]
      exact fun h => hk ⟨4, List.mem_cons_self .., h.symm⟩
    have hone : addCount p 1 ⟨P.set (p + 4) c, i⟩ = ⟨P.set (p + 4) (c + 1), i⟩ := by
      simp only [addCount, hwc, List.set_set]
    have hback : addCount p (-1) ⟨P.set (p + 4) (c + 1), i⟩ = ⟨P.set (p + 4) c, i⟩ := by
      have hw : word (P.set (p + 4) (c + 1)) (p + 4) = c + 1 := (hset (c + 1)).cons.2.cons.2.cons.2.cons.2.cons.1
      have hminus : c + 1 + -1 = c := by omega
      simp only [addCount, hw, List.set_set, hminus]
    have hagain : c < max → Decides T (fun n => (regmatch text n (p + 5) (addCount p 1 ⟨P.set (p + 4) c, i⟩)).onFail
        fun st => some (false, addCount p (-1) st))
        (∃ k, r.Match text i k ∧ Again (r.Match text) min max K (c + 1) k) (· = ⟨P.set (p + 4) c, i⟩) := by
      intro hlt
      obtain ⟨hatr, hatb⟩ := At.append (A := r.code (some 0)) (hset (c + 1)).cons.2.cons.2.cons.2.cons.2.cons.2
      have hplace : p + 1 + 1 + 1 + 1 + 1 + (r.code (some 0)).length = p + 5 + (r.size + 0) := by
        rw [length_code]
        omega
      rw [hplace] at hatb
      have hfollows : Follows text T r (P.set (p + 4) (c + 1)) (p + 5) (p + 5 + (r.size + 0)) (Again (r.Match text) min max K (c + 1)) := by
        intro P' hag j hj
        have hsame : P' = P.set (p + 4) (c + 1) := hag.eq fun k ⟨c, hc, _⟩ => by simp [hcounts] at hc
        subst hsame
        have hopb := hatb.cons.1
        have hoff := hatb.cons.2.cons.1
        have hnextb : regnext (P.set (p + 4) (c + 1)) (p + 5 + (r.size + 0)) = p := by
          unfold regnext
          simp only [hopb, hoff]
          rw [if_neg (by omega), if_pos trivial]
          omega
        have hne : p + 5 + (r.size + 0) ≠ 0 := by omega
        refine (ih hlt j hj).succ fun n => ?_
        generalize p + 5 + (r.size + 0) = q at hopb hnextb hne ⊢
        simp +decide [regmatch, hopb, hnextb, hne]
      have hbody := hr _ (p + 5) 0 _ (by omega) hatr hfollows i hi
      have hkeep := Re.captures_back hcaptures hplain (by omega) hatr hbody
      rw [hone]
      have hfail := hkeep.onFail (c := False) (R := (· = ⟨P.set (p + 4) c, i⟩))
        (k := fun _ st => some (false, addCount p (-1) st))
        fun st hst _ => .fail (fun _ => rfl) id (hst ▸ hback)
      exact hfail.congr (or_iff_left id)
    by_cases hless : c < min
    · have hmust := (hagain (by omega)).mono (R := (·.program = P.set (p + 4) c)) fun st hst => by rw [hst]
      refine (hmust.succ (g := fun n => regmatch text n p ⟨P.set (p + 4) c, i⟩) fun n => ?_).congr ?_
      · simp +decide [regmatch, hop, hp, regmatchrepeat, hwc, hwmin, hless]
      · rw [again_iff]
        exact ⟨.inl, fun h => h.resolve_right fun h => by omega⟩
    · by_cases hmore : c < max
      · have hboth := (hagain hmore).onFail (c := K i) (R := (·.program = P.set (p + 4) c))
          (k := fun n st => regmatch text n (regnext st.program p) st) fun st hst _ => by
            rw [hst]
            simp only [hnext]
            exact hexit
        refine (hboth.succ (g := fun n => regmatch text n p ⟨P.set (p + 4) c, i⟩) fun n => ?_).congr ?_
        · simp +decide [regmatch, hop, hp, regmatchrepeat, hwc, hwmin, hwmax, hless, hmore, Int.not_lt.mpr hcmax]
        · rw [again_iff (c := c)]
          exact or_congr_right ⟨fun h => ⟨by omega, by omega, h⟩, fun h => h.2.2⟩
      · refine (hexit.succ (g := fun n => regmatch text n p ⟨P.set (p + 4) c, i⟩) fun n => ?_).congr ?_
        · simp +decide [regmatch, hop, hp, regmatchrepeat, hwc, hwmin, hwmax, hless, hmore, Int.not_lt.mpr hcmax, hnext, Tried.onFail]
        · rw [again_iff]
          have hno : ¬ ∃ k, r.Match text i k ∧ Again (r.Match text) min max K (c + 1) k :=
            fun ⟨k, _, hk⟩ => not_again (by omega) hk
          rw [or_iff_right hno]
          exact ⟨fun h => ⟨by omega, by omega, h⟩, fun h => h.2.2⟩
  have hloop : ∀ (m : Nat) (c : Int), c ≤ max → max - c ≤ m → ∀ i ≤ text.length,
      RunAt text T (P.set (p + 4) c) p i (Again (r.Match text) min max K c i) := by
    intro m
    induction m with
    | zero => exact fun c hcmax hm => hstep c hcmax fun hlt => by omega
    | succ m ih => exact fun c hcmax hm => hstep c hcmax fun hlt => ih (c + 1) (by omega) (by omega)
  have hrun := hloop max.toNat 0 (by omega) (by omega) i hi
  rw [hzero] at hrun
  refine hrun.congr ?_
  constructor
  · intro ⟨n, j, hn, hnmax, ht, hKj⟩
    exact ⟨j, ⟨n, by omega, by omega, ht⟩, hKj⟩
  · intro ⟨j, ⟨n, hn, hnmax, ht⟩, hKj⟩
    exact ⟨n, j, by omega, by omega, ht, hKj⟩

end

end Iamroot.Regexp
