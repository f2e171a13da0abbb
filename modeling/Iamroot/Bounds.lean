import Iamroot.RealpathLoop
import Iamroot.Lib.Orbit

/-!
# The indices of the symlink walk

`stack` is an array of `PATH_MAX+1` bytes whose last one is NUL, the unread part
begins at `p`, and `output` has room for `PATH_MAX` bytes. Every turn keeps that,
whatever the host answers. What a turn does not always keep are the bytes of the
unread part: the root directory is put before the text of a link once the length
of the text alone has been checked.
-/

namespace Iamroot

open Orbit

/-! ## The turn once more -/

def unread (s : Scan) : Str := s.stack.drop s.p

def component (s : Scan) : Str := (s.stack.drop s.p).takeWhile fun c => c ≠ '/' ∧ c ≠ nul

def copied (s : Scan) : Scan := { s with
  stack := if needsSlash s.output then s.stack.set (s.p - 1) '/' else s.stack
  p := s.p + (component s).length }

/-- There is no room for the slash before the component, or for the component. -/
def Overlong (s : Scan) : Prop := needsSlash s.output = true ∧ s.p = 0 ∨ pathMax ≤ (addName s.output (component s)).length

instance (s : Scan) : Decidable (Overlong s) := by
  unfold Overlong
  infer_instance

def Ups (nup : Nat) (output : Str) : Prop := nup = 0 ∨ ∃ k rest, nup = k + 1 ∧ output = upsText k ++ dotdot ++ rest ∧ Rest rest

structure InBounds (s : Scan) : Prop where
  size : s.stack.length = pathMax + 1
  ended : s.stack[pathMax]? = some nul
  p_le : s.p ≤ pathMax
  q_lt : s.output.length < pathMax
  cnt_lt : s.cnt < symloopMax
  dir : s.checkDir = true → needsSlash s.output = true
  ups : Ups s.nup s.output

namespace Ups

variable {n : Nat} {out : Str}

theorem le (U : Ups n out) : 3 * n ≤ out.length + 1 := by
  rcases U with rfl | ⟨k, rest, rfl, rfl, -⟩
  · omega
  · rw [List.length_append, List.length_append, length_upsText]
    have : dotdot.length = 2 := rfl
    omega

theorem add (U : Ups n out) (hl : out.length ≤ 3 * n) : Ups (n + 1) (addName out dotdot) := by
  refine Or.inr ⟨n, [], rfl, ?_, Or.inl rfl⟩
  rw [List.append_nil]
  rcases U with rfl | ⟨k, rest, rfl, rfl, hr⟩
  · rw [List.length_eq_zero_iff.mp (Nat.le_zero.mp hl)]
    rfl
  · rw [List.length_append, List.length_append, length_upsText] at hl
    have hd : dotdot.length = 2 := rfl
    rcases hr with rfl | ⟨w, rfl⟩
    · rw [List.append_nil, addName_of_needs (needsSlash_append (by decide) (by decide)), upsText_succ]
      simp [dotdot]
    · rw [List.length_cons] at hl
      have hw : w = [] := List.length_eq_zero_iff.mp (by omega)
      rw [hw, addName_eq, piece, if_neg (by simp [needsSlash]), upsText_succ]
      simp [dotdot]

theorem push (U : Ups n out) (c : Str) : Ups n (addName out c) := by
  rcases U with rfl | ⟨k, rest, rfl, rfl, hr⟩
  · exact Or.inl rfl
  · rcases hr with rfl | ⟨w, rfl⟩
    · rw [List.append_nil, addName_of_needs (needsSlash_append (by decide) (by decide))]
      exact Or.inr ⟨k, '/' :: c, rfl, rfl, Or.inr ⟨c, rfl⟩⟩
    · rw [addName_eq, List.append_assoc]
      exact Or.inr ⟨k, _, rfl, rfl, Or.inr ⟨_, rfl⟩⟩

theorem rdropWhile_append_slash (a w : Str) :
    ∃ w', (a ++ '/' :: w).rdropWhile (· ≠ '/') = a ++ '/' :: w' ∧ w' <+: w := by
  induction w using List.reverseRecOn with
  | nil => exact ⟨[], List.rdropWhile_concat_neg _ _ _ (by decide), List.prefix_refl _⟩
  | append_singleton w x ih =>
    have he : a ++ '/' :: (w ++ [x]) = (a ++ '/' :: w) ++ [x] := by rw [List.append_assoc, List.cons_append]
    rw [he]
    by_cases hx : x = '/'
    · refine ⟨w ++ [x], ?_, List.prefix_refl _⟩
      rw [List.rdropWhile_concat_neg _ _ _ (by simp [hx]), he]
    · obtain ⟨w', hw, hp⟩ := ih
      refine ⟨w', ?_, hp.trans (List.prefix_append _ _)⟩
      rw [List.rdropWhile_concat_pos _ _ _ (by simp [hx]), hw]

theorem pop (U : Ups n out) (hl : 3 * n < out.length) : Ups n (popName out) := by
  rcases U with rfl | ⟨k, rest, rfl, rfl, hr⟩
  · exact Or.inl rfl
  · rcases hr with rfl | ⟨w, rfl⟩
    · rw [List.append_nil, List.length_append, length_upsText] at hl
      have hd : dotdot.length = 2 := rfl
      omega
    · obtain ⟨w', hw, -⟩ := rdropWhile_append_slash (upsText k ++ dotdot) w
      have hlen : 2 < (upsText k ++ dotdot ++ '/' :: w').length := by
        simp [dotdot]
        omega
      refine Or.inr ⟨k, ('/' :: w').dropLast, rfl, ?_, ?_⟩
      · unfold popName
        rw [hw, if_pos ⟨by omega, Or.inl hlen⟩, List.dropLast_append_of_ne_nil (List.cons_ne_nil _ _)]
      · cases w' with
        | nil => exact Or.inl rfl
        | cons x w' => exact Or.inr ⟨_, rfl⟩

end Ups

theorem length_popName_le (out : Str) : (popName out).length ≤ out.length := by
  have h := (List.rdropWhile_prefix (fun c : Char => decide (c ≠ '/')) (l := out)).length_le
  unfold popName
  dsimp only
  split
  · rw [List.length_dropLast]
    omega
  · exact h

theorem length_takeWhile_le {f : Char → Bool} {x : Char} (hx : f x = false) :
    ∀ {l : Str} {i : Nat}, l[i]? = some x → (l.takeWhile f).length ≤ i
  | [], i, h => Nat.zero_le i
  | y :: l, 0, h => by
    obtain rfl : y = x := by simpa using h
    simp [hx]
  | y :: l, i + 1, h => by
    have ih := length_takeWhile_le hx (l := l) (i := i) (by simpa using h)
    rw [List.takeWhile_cons]
    split
    · rw [List.length_cons]
      omega
    · exact Nat.zero_le _

theorem component_isPrefix (s : Scan) : component s <+: unread s := List.takeWhile_prefix _

theorem not_slash_mem_component (s : Scan) : '/' ∉ component s := by
  intro hm
  have := List.mem_takeWhile_imp hm
  simp at this

namespace InBounds

variable {s : Scan}

theorem end_unread (B : InBounds s) : (unread s)[pathMax - s.p]? = some nul := by
  have hp := B.p_le
  rw [unread, List.getElem?_drop, ← B.ended]
  congr 1
  omega

theorem component_le (B : InBounds s) : s.p + (component s).length ≤ pathMax := by
  have h := length_takeWhile_le (f := fun c => c ≠ '/' ∧ c ≠ nul) (by decide) B.end_unread
  have hp := B.p_le
  have : (component s).length ≤ pathMax - s.p := h
  omega

theorem slashes_le (B : InBounds s) : s.p + slashLen (s.stack.drop s.p) ≤ pathMax := by
  have h := length_takeWhile_le (f := fun c => c = '/') (by decide) B.end_unread
  have hp := B.p_le
  have : slashLen (s.stack.drop s.p) ≤ pathMax - s.p := h
  omega

theorem skipped (B : InBounds s) : InBounds (skipped s) := { B with p_le := B.slashes_le }

theorem take_component (s : Scan) : (s.stack.drop s.p).take (component s).length = component s :=
  (List.prefix_iff_eq_take.mp (component_isPrefix s)).symm

theorem drop_set_slash (B : InBounds s) (hp : 0 < s.p) :
    (s.stack.set (s.p - 1) '/').drop (s.p - 1) = '/' :: s.stack.drop s.p := by
  have hle := B.p_le
  have hlt : s.p - 1 < s.stack.length := by rw [B.size]; omega
  rw [List.drop_eq_getElem_cons (by rw [List.length_set]; exact hlt), List.getElem_set_self,
    List.drop_set_of_lt (by omega)]
  congr 2
  omega

end InBounds

/-- A turn of the main loop, up to where a component has been copied that is not just counted;
`ask` is the rest. -/
def popTurn (ask : Scan → Str → Nat → Bool → Turn Scan) (s : Scan) : Turn Scan :=
  if s.stack[s.p]? = some '/' then
    let p := s.p + 1
    .next { s with
      checkDir := false
      nup := 0
      output := if s.stack[p]? = some '/' ∧ s.stack[p + 1]? ≠ some '/' then ['/', '/'] else ['/']
      p := p }
  else
    let c := (s.stack.drop s.p).takeWhile fun c => c ≠ '/' ∧ c ≠ nul
    let l0 := c.length
    if l0 = 0 ∧ s.checkDir = false then .leave s
    else if c = dot then .next { s with p := s.p + l0 }
    else if needsSlash s.output ∧ s.p = 0 then .fail .ENAMETOOLONG
    else
      let stack := if needsSlash s.output then s.stack.set (s.p - 1) '/' else s.stack
      let p := if needsSlash s.output then s.p - 1 else s.p
      let l := if needsSlash s.output then l0 + 1 else l0
      if pathMax ≤ s.output.length + l then .fail .ENAMETOOLONG
      else
        let piece := (stack.drop p).take l
        let s := { s with stack := stack, p := p + l }
        let up := c = dotdot
        if up ∧ s.output.length ≤ 3 * s.nup then .next { s with nup := s.nup + 1, output := s.output ++ piece }
        else ask s piece l0 up

theorem turn_pop (h : Host) (env : Option Str) (errnoSave : Option Errno) (atflags : Word) (s : Scan) :
    turn h env errnoSave atflags s = popTurn (fun x piece l0 up =>
      if up ∧ x.checkDir = false ∨ followSymlink atflags = false then skipReadlink x piece l0 up
      else getxattrTurn h env errnoSave x piece l0 up) s := by
  unfold turn popTurn
  simp only [decide_eq_true_eq]

section
variable (h : Host) (env : Option Str) (errnoSave : Option Errno) (atflags : Word) {s : Scan}

theorem popTurn_eq (B : InBounds s) (ask : Scan → Str → Nat → Bool → Turn Scan) : popTurn ask s =
    if s.stack[s.p]? = some '/' then .next { s with
      checkDir := false
      nup := 0
      output := if s.stack[s.p + 1]? = some '/' ∧ s.stack[s.p + 1 + 1]? ≠ some '/' then ['/', '/'] else ['/']
      p := s.p + 1 }
    else if component s = [] ∧ s.checkDir = false then .leave s
    else if component s = dot then .next { s with p := s.p + 1 }
    else if Overlong s then .fail .ENAMETOOLONG
    else if component s = dotdot ∧ s.output.length ≤ 3 * s.nup then
      .next { copied s with nup := s.nup + 1, output := addName s.output (component s) }
    else ask (copied s) (piece s.output (component s)) (component s).length (component s = dotdot) := by
  unfold popTurn
  by_cases h0 : s.stack[s.p]? = some '/'
  · rw [if_pos h0, if_pos h0]
  rw [if_neg h0, if_neg h0]
  have hc : (s.stack.drop s.p).takeWhile (fun c => decide (c ≠ '/' ∧ c ≠ nul)) = component s := rfl
  simp only [hc, List.length_eq_zero_iff]
  by_cases h1 : component s = [] ∧ s.checkDir = false
  · rw [if_pos h1, if_pos h1]
  rw [if_neg h1, if_neg h1]
  by_cases h2 : component s = dot
  · have hl : (component s).length = 1 := by rw [h2]; rfl
    rw [if_pos h2, if_pos h2, hl]
  rw [if_neg h2, if_neg h2]
  by_cases hns : needsSlash s.output = true
  · by_cases hp : s.p = 0
    · rw [if_pos ⟨hns, hp⟩, if_pos (show Overlong s from Or.inl ⟨hns, hp⟩)]
    have hpos : 0 < s.p := Nat.pos_of_ne_zero hp
    have hpl : s.p - 1 + ((component s).length + 1) = s.p + (component s).length := by omega
    have hpc : ((s.stack.set (s.p - 1) '/').drop (s.p - 1)).take ((component s).length + 1) =
        piece s.output (component s) := by
      rw [B.drop_set_slash hpos, List.take_succ_cons, InBounds.take_component, piece, if_pos hns]
    have hlen : s.output.length + ((component s).length + 1) = (addName s.output (component s)).length := by
      rw [addName_eq, List.length_append, piece, if_pos hns, List.length_cons]
    have hov : Overlong s ↔ pathMax ≤ (addName s.output (component s)).length := by
      unfold Overlong
      simp [hp]
    simp only [hns, hp, hpl, hpc, hlen, hov, and_false, if_false, if_true]
    rw [copied, if_pos hns]
    rfl
  · have hpc : (s.stack.drop s.p).take (component s).length = piece s.output (component s) := by
      rw [InBounds.take_component, piece, if_neg hns]
    have hlen : s.output.length + (component s).length = (addName s.output (component s)).length := by
      rw [addName_eq, List.length_append, piece, if_neg hns]
    have hov : Overlong s ↔ pathMax ≤ (addName s.output (component s)).length := by
      unfold Overlong
      simp [hns]
    simp only [hns, hpc, hlen, hov, false_and, if_false, Bool.false_eq_true]
    rw [copied, if_neg hns]
    rfl

theorem turn_eq (B : InBounds s) : turn h env errnoSave atflags s =
    if s.stack[s.p]? = some '/' then .next { s with
      checkDir := false
      nup := 0
      output := if s.stack[s.p + 1]? = some '/' ∧ s.stack[s.p + 1 + 1]? ≠ some '/' then ['/', '/'] else ['/']
      p := s.p + 1 }
    else if component s = [] ∧ s.checkDir = false then .leave s
    else if component s = dot then .next { s with p := s.p + 1 }
    else if Overlong s then .fail .ENAMETOOLONG
    else compTurn h env errnoSave atflags (copied s) (component s) := by
  rw [turn_pop, popTurn_eq B]
  simp only [decide_eq_true_eq]
  rfl

end

/-! ## What a turn keeps -/

def takenLen (s : Scan) : Nat := if s.stack[s.p]? = some '/' then 1 else (component s).length

/-- It goes down as long as nothing is put back on the stack. -/
def rank (s : Scan) : Nat := 2 * (pathMax - s.p) + s.checkDir.toNat

structure Passed (s s' : Scan) : Prop where
  bounds : InBounds s'
  unread : unread s' = (unread s).drop (takenLen s)
  cnt : s'.cnt = s.cnt
  rank : rank s' < rank s

structure Pushed (s s' : Scan) (pushed : Str) : Prop where
  bounds : InBounds s'
  unread : ∃ rest, unread s' = pushed ++ rest ∧
    (rest = (unread s).drop (takenLen s) ∨ rest = ((unread s).drop (takenLen s)).dropWhile (· = '/'))

structure Copies (s : Scan) : Prop where
  noSlash : s.stack[s.p]? ≠ some '/'
  named : component s = [] → s.checkDir = true
  notDot : component s ≠ dot
  short : ¬ Overlong s

variable {s : Scan}

theorem copied_inBounds (B : InBounds s) : InBounds (copied s) where
  size := by
    unfold copied
    dsimp only
    split
    · rw [List.length_set, B.size]
    · exact B.size
  ended := by
    have hp := B.p_le
    have hne : s.p - 1 ≠ pathMax := by
      have : 0 < pathMax := by decide
      omega
    unfold copied
    dsimp only
    split
    · rw [List.getElem?_set_ne hne, B.ended]
    · exact B.ended
  p_le := B.component_le
  q_lt := B.q_lt
  cnt_lt := B.cnt_lt
  dir := B.dir
  ups := B.ups

theorem takenLen_eq (N : Copies s) : takenLen s = (component s).length := if_neg N.noSlash

theorem unread_copied (N : Copies s) : unread (copied s) = (unread s).drop (takenLen s) := by
  rw [takenLen_eq N, unread, unread, List.drop_drop]
  unfold copied
  dsimp only
  split
  · rename_i hn
    have hp : s.p ≠ 0 := fun h0 => N.short (Or.inl ⟨hn, h0⟩)
    exact List.drop_set_of_lt (by omega)
  · rfl

/-- The host is never asked with an empty buffer. -/
theorem copied_pos (B : InBounds s) (N : Copies s) : 0 < (copied s).p := by
  show 0 < s.p + (component s).length
  by_cases hc : component s = []
  · have hn := B.dir (N.named hc)
    have hp : s.p ≠ 0 := fun h0 => N.short (Or.inl ⟨hn, h0⟩)
    omega
  · have := List.length_pos_of_ne_nil hc
    omega

theorem addName_lt (N : Copies s) : (addName s.output (component s)).length < pathMax := by
  by_contra hlt
  exact N.short (Or.inr (Nat.not_lt.mp hlt))

/-! ## Turns that go on -/

theorem head_of_component_nil (B : InBounds s) (N : Copies s) (hc : component s = []) : s.stack[s.p]? = some nul := by
  have hlt : s.p < s.stack.length := by
    have := B.p_le
    have := B.size
    omega
  have hd : s.stack.drop s.p = s.stack[s.p] :: s.stack.drop (s.p + 1) := List.drop_eq_getElem_cons hlt
  have hx : ¬ (s.stack[s.p] ≠ '/' ∧ s.stack[s.p] ≠ nul) := by
    intro hx
    rw [component, hd, List.takeWhile_cons, if_pos (decide_eq_true hx)] at hc
    cases hc
  have hs := N.noSlash
  rw [List.getElem?_eq_getElem hlt] at hs ⊢
  have : s.stack[s.p] ≠ '/' := fun e => hs (by rw [e])
  by_contra hn
  exact hx ⟨this, fun e => hn (by rw [e])⟩

theorem output_kept (B : InBounds s) (N : Copies s) {out : Str}
    (ho : out = if (component s).length = 0 then s.output else s.output ++ piece s.output (component s)) :
    out.length < pathMax ∧ needsSlash out = true ∧ Ups s.nup out := by
  by_cases hc : component s = []
  · rw [if_pos (List.length_eq_zero_iff.mpr hc)] at ho
    subst ho
    exact ⟨B.q_lt, B.dir (N.named hc), B.ups⟩
  · rw [if_neg fun h => hc (List.length_eq_zero_iff.mp h), ← addName_eq] at ho
    subst ho
    exact ⟨addName_lt N, needsSlash_addName hc (not_slash_mem_component s), B.ups.push _⟩

theorem skipReadlink_passed (B : InBounds s) (N : Copies s) {x : Scan} (hx : ∃ e, x = { copied s with errno := e })
    (hu : component s = dotdot → 3 * s.nup < s.output.length) :
    ∃ s', skipReadlink x (piece s.output (component s)) (component s).length (component s = dotdot) = .next s' ∧
      Passed s s' := by
  obtain ⟨e, rfl⟩ := hx
  have C := copied_inBounds B
  have hun := unread_copied N
  have hple := B.component_le
  by_cases hup : component s = dotdot
  · have hl : (component s).length = 2 := by rw [hup]; rfl
    refine ⟨_, if_pos (decide_eq_true hup), ?_⟩
    refine ⟨?_, hun, rfl, ?_⟩
    · exact { C with
        q_lt := Nat.lt_of_le_of_lt (length_popName_le _) B.q_lt
        dir := nofun
        ups := B.ups.pop (hu hup) }
    · show 2 * (pathMax - (s.p + (component s).length)) + 0 < _
      unfold rank
      omega
  · obtain ⟨hq, hd, hU⟩ := output_kept B N rfl
    refine ⟨_, if_neg (by simp [hup]), ?_⟩
    refine ⟨?_, hun, rfl, ?_⟩
    · exact { C with q_lt := hq, dir := fun _ => hd, ups := hU }
    · show 2 * (pathMax - (s.p + (component s).length)) + Bool.toNat _ < 2 * (pathMax - s.p) + s.checkDir.toNat
      by_cases hc : component s = []
      · have hn : (copied s).stack[(copied s).p]? = some nul := by
          have h0 : (unread (copied s))[0]? = (unread s)[0]? := by
            rw [hun, takenLen_eq N, hc]
            rfl
          rw [unread, unread, List.getElem?_drop, List.getElem?_drop] at h0
          exact h0.trans (head_of_component_nil B N hc)
        dsimp only
        rw [hn, N.named hc, hc]
        show 2 * (pathMax - (s.p + 0)) + 0 < 2 * (pathMax - s.p) + 1
        omega
      · have hpos := List.length_pos_of_ne_nil hc
        have hb := Bool.toNat_le ((copied s).stack[(copied s).p]?.any (· ≠ nul))
        dsimp only
        omega

theorem next_ups (B : InBounds s) (N : Copies s) (hc : component s = dotdot) (hu : s.output.length ≤ 3 * s.nup) :
    Passed s { copied s with nup := s.nup + 1, output := addName s.output (component s) } := by
  have C := copied_inBounds B
  have hl : (component s).length = 2 := by rw [hc]; rfl
  have hple := B.component_le
  refine ⟨?_, unread_copied N, rfl, ?_⟩
  · exact { C with
      q_lt := addName_lt N
      dir := fun _ => needsSlash_addName (by rw [hc]; decide) (not_slash_mem_component s)
      ups := by
        dsimp only
        rw [hc]
        exact B.ups.add hu }
  · show 2 * (pathMax - (s.p + (component s).length)) + s.checkDir.toNat < _
    unfold rank
    omega

theorem next_slash (B : InBounds s) (h0 : s.stack[s.p]? = some '/') {out : Str} (ho : out.length < pathMax) :
    Passed s { s with checkDir := false, nup := 0, output := out, p := s.p + 1 } := by
  have hlt : s.p < pathMax := by
    refine Nat.lt_of_le_of_ne B.p_le ?_
    intro he
    rw [he, B.ended] at h0
    exact absurd h0 (by decide)
  refine ⟨?_, ?_, rfl, ?_⟩
  · exact { B with p_le := hlt, q_lt := ho, dir := nofun, ups := Or.inl rfl }
  · rw [unread, unread, List.drop_drop, takenLen, if_pos h0]
  · show 2 * (pathMax - (s.p + 1)) + 0 < _
    unfold rank
    omega

theorem next_dot (B : InBounds s) (h0 : s.stack[s.p]? ≠ some '/') (hc : component s = dot) :
    Passed s { s with p := s.p + 1 } := by
  have hl : (component s).length = 1 := by rw [hc]; rfl
  have hple := B.component_le
  refine ⟨?_, ?_, rfl, ?_⟩
  · exact { B with p_le := by dsimp only; omega }
  · rw [unread, unread, List.drop_drop, takenLen, if_neg h0, hl]
  · show 2 * (pathMax - (s.p + 1)) + s.checkDir.toNat < _
    unfold rank
    omega

/-! ## Turns that ask the host -/

structure Asks (atflags : Word) (s : Scan) : Prop extends Copies s where
  up : component s = dotdot → 3 * s.nup < s.output.length ∧ s.checkDir = true
  follow : followSymlink atflags = true

structure Redirects (h : Host) (atflags : Word) (s : Scan) (v : Str) : Prop extends Asks atflags s where
  value : getxattr h (addName s.output (component s)) (copied s).p = .ok v
  ne_nil : v ≠ []
  ne_size : v.length ≠ (copied s).p

structure Links (h : Host) (atflags : Word) (s : Scan) (t : Str) : Prop extends Asks atflags s where
  noValue : ∀ v, getxattr h (addName s.output (component s)) (copied s).p = .ok v → v = []
  text : h.readlink (addName s.output (component s)) = .ok t
  ne_nil : t ≠ []

section
variable {h : Host} {env : Option Str} {errnoSave : Option Errno} {atflags : Word} {x : Scan} {v t : Str}

theorem Redirects.lt (R : Redirects h atflags s v) : v.length < (copied s).p := by
  have hv := R.value
  rw [getxattr] at hv
  cases hx : h.getxattr (addName s.output (component s)) with
  | error e =>
    rw [hx] at hv
    cases hv
  | ok w =>
    rw [hx] at hv
    have hw : (if (copied s).p < w.length then Except.error Errno.ERANGE else .ok w) = .ok v := hv
    split at hw
    · cases hw
    · cases hw
      have := R.ne_size
      omega

theorem readlinkTurn_passed (B : InBounds s) (A : Asks atflags s) (hx : ∃ e, x = { copied s with errno := e }) {T : Turn Scan}
    (hT : T = readlinkTurn h env errnoSave x (piece s.output (component s)) (component s).length (component s = dotdot))
    (hno : ∀ v, getxattr h (addName s.output (component s)) (copied s).p = .ok v → v = []) :
    (∃ s', T = .next s' ∧ Passed s s') ∨ (∃ e, T = .fail e) ∨
      ∃ t, Links h atflags s t ∧ t.length < (copied s).p ∧ x.cnt + 1 ≠ symloopMax ∧ T = followLink env x t := by
  have hskip : ∀ y, (∃ e, y = { copied s with errno := e }) →
      ∃ s', skipReadlink y (piece s.output (component s)) (component s).length (component s = dotdot) = .next s' ∧
        Passed s s' := fun y hy => skipReadlink_passed B A.toCopies hy fun hc => (A.up hc).1
  have hpos := copied_pos B A.toCopies
  have hxp : x.p = (copied s).p := by
    obtain ⟨e, rfl⟩ := hx
    rfl
  have hxo : x.output ++ piece s.output (component s) = addName s.output (component s) := by
    obtain ⟨e, rfl⟩ := hx
    rfl
  have hxe : ∀ e, ∃ e', { x with errno := e } = { copied s with errno := e' } := by
    obtain ⟨e, rfl⟩ := hx
    exact fun e => ⟨e, rfl⟩
  have hr : readlink h (x.output ++ piece s.output (component s)) x.p =
      (h.readlink (addName s.output (component s))).map (·.take (copied s).p) := by
    rw [readlink, hxo, hxp, if_neg (by omega)]
  rw [readlinkTurn, hr] at hT
  cases hl : h.readlink (addName s.output (component s)) with
  | error e =>
    simp only [hl, Except.map] at hT
    split at hT
    · obtain ⟨s', hs', P⟩ := hskip _ (hxe _)
      exact Or.inl ⟨s', hT.trans hs', P⟩
    · split at hT
      · exact Or.inr (Or.inl ⟨_, hT⟩)
      · obtain ⟨s', hs', P⟩ := hskip _ (hxe _)
        exact Or.inl ⟨s', hT.trans hs', P⟩
  | ok t =>
    simp only [hl, Except.map, hxp] at hT
    split at hT
    · exact Or.inr (Or.inl ⟨_, hT⟩)
    rename_i hlt
    rw [List.length_take] at hlt
    have htake : t.take (copied s).p = t := List.take_of_length_le (by omega)
    rw [htake] at hT
    split at hT
    · split at hT
      · obtain ⟨s', hs', P⟩ := hskip _ hx
        exact Or.inl ⟨s', hT.trans hs', P⟩
      · exact Or.inr (Or.inl ⟨_, hT⟩)
    rename_i h0
    split at hT
    · exact Or.inr (Or.inl ⟨_, hT⟩)
    rename_i hcnt
    have hne : t ≠ [] := fun e => h0 (by rw [e]; rfl)
    exact Or.inr (Or.inr ⟨t, { A with noValue := hno, text := hl, ne_nil := hne }, by omega, hcnt, hT⟩)

theorem followLink_bounds (B : InBounds x) (ht : t ≠ []) (hc : x.cnt + 1 < symloopMax) {T : Turn Scan}
    (hT : T = followLink env x t) : T = .fault ∨ ∃ s', T = .restart s' ∧ InBounds s' ∧ s'.cnt = x.cnt + 1 := by
  have hsz := B.size
  have hple := B.p_le
  have hpos := List.length_pos_of_ne_nil ht
  obtain ⟨root, hroot⟩ : ∃ root, root =
    if isAbs t && inchroot env then (getrootdir env).take (strlen (getrootdir env)) else [] := ⟨_, rfl⟩
  unfold followLink at hT
  simp only [← hroot] at hT
  split at hT
  · exact Or.inl hT
  rename_i hk
  rw [List.length_append, List.length_drop, hsz, Nat.not_le] at hk
  obtain ⟨stack, hstack⟩ : ∃ stack, stack =
    root ++ (t ++ x.stack.drop t.length).take t.length ++ (t ++ x.stack.drop t.length).drop (root.length + t.length) :=
    ⟨_, rfl⟩
  rw [← hstack] at hT
  have hst : stack = root ++ t ++ (t ++ x.stack.drop t.length).drop (root.length + t.length) := by
    rw [hstack, List.take_left]
  have hssz : stack.length = pathMax + 1 := by
    rw [hst]
    simp only [List.length_append, List.length_drop, hsz]
    omega
  have hend : stack[pathMax]? = some nul := by
    rw [hst, List.getElem?_append_right (by rw [List.length_append]; omega), List.getElem?_drop, List.length_append]
    have hi : root.length + t.length + (pathMax - (root.length + t.length)) = pathMax := by omega
    rw [hi, List.getElem?_append_right (by omega), List.getElem?_drop]
    have hj : t.length + (pathMax - t.length) = pathMax := by omega
    rw [hj, B.ended]
  have S : InBounds { x with stack := stack } := { B with size := hssz, ended := hend }
  obtain ⟨p, hp⟩ : ∃ p, p = if stack[root.length + t.length - 1]? = some '/'
    then x.p + slashLen (stack.drop x.p) else x.p := ⟨_, rfl⟩
  have hpb : p ≤ pathMax := by
    rw [hp]
    split
    · exact S.slashes_le
    · exact hple
  rw [← hp] at hT
  split at hT
  · exact Or.inl hT
  rename_i hpk
  refine Or.inr ⟨_, hT, ?_, rfl⟩
  have hlen : (stack.take (p - (root.length + t.length)) ++ stack.take (root.length + t.length)).length = p := by
    simp only [List.length_append, List.length_take]
    omega
  exact { B with
    size := by
      dsimp only
      rw [List.length_append, hlen, List.length_drop]
      omega
    ended := by
      dsimp only
      rw [List.getElem?_append_right (by omega), hlen, List.getElem?_drop, ← hend]
      congr 1
      omega
    p_le := by
      dsimp only
      omega
    cnt_lt := hc }

theorem Redirects.pushed (R : Redirects h atflags s v) (B : InBounds s) (hl : 2 * v.length ≤ (copied s).p + 2) :
    ∃ s', getxattrTurn h env errnoSave (copied s) (piece s.output (component s)) (component s).length
      (component s = dotdot) = .restart s' ∧ Pushed s s' v.dropLast ∧ s'.cnt = s.cnt := by
  have C := copied_inBounds B
  have hsz := C.size
  have hple := C.p_le
  have hlt := R.lt
  have hpos := List.length_pos_of_ne_nil R.ne_nil
  have hval : getxattr h ((copied s).output ++ piece s.output (component s)) (copied s).p = .ok v := R.value
  obtain ⟨stack, hstack⟩ : ∃ stack, stack = v ++ (copied s).stack.drop v.length := ⟨_, rfl⟩
  have hssz : stack.length = pathMax + 1 := by
    rw [hstack, List.length_append, List.length_drop, hsz]
    omega
  have hd : stack.drop (copied s).p = unread (copied s) := by
    rw [hstack, List.drop_append, List.drop_eq_nil_of_le (by omega), List.nil_append, List.drop_drop, unread]
    congr 1
    omega
  have htake : stack.take (v.length - 1) = v.dropLast := by
    rw [hstack, List.take_append_of_le_length (by omega), ← List.dropLast_eq_take]
  have hpl : (stack.take ((copied s).p - v.length + 1)).length = (copied s).p - (v.length - 1) := by
    rw [List.length_take]
    omega
  rw [getxattrTurn, hval]
  simp only
  rw [if_neg R.ne_size, if_neg (by omega), ← hstack, if_neg (by omega)]
  refine ⟨_, rfl, ⟨?_, (unread s).drop (takenLen s), ?_, Or.inl rfl⟩, rfl⟩
  · have hlen : (stack.take ((copied s).p - v.length + 1) ++ stack.take (v.length - 1)).length = (copied s).p := by
      simp only [List.length_append, List.length_take]
      omega
    have hend : (stack.drop (copied s).p)[pathMax - (copied s).p]? = some nul := by
      rw [hd]
      exact C.end_unread
    exact { C with
      size := by
        dsimp only
        rw [List.length_append, hlen, List.length_drop]
        omega
      ended := by
        dsimp only
        rw [List.getElem?_append_right (by omega), hlen, hend]
      p_le := by
        dsimp only
        omega }
  · rw [unread]
    dsimp only
    rw [hd, htake, List.append_assoc, List.drop_left' hpl, unread_copied R.toCopies]

theorem Redirects.overlaps (R : Redirects h atflags s v) (hl : ¬ 2 * v.length ≤ (copied s).p + 2) :
    getxattrTurn h env errnoSave (copied s) (piece s.output (component s)) (component s).length
      (component s = dotdot) = .fault := by
  have hlt := R.lt
  have hpos := List.length_pos_of_ne_nil R.ne_nil
  have hval : getxattr h ((copied s).output ++ piece s.output (component s)) (copied s).p = .ok v := R.value
  rw [getxattrTurn, hval]
  simp only
  rw [if_neg R.ne_size, if_neg (by omega), if_pos (by omega)]

theorem Links.pushed (L : Links h atflags s t) (B : InBounds s) (hx : ∃ e, x = { copied s with errno := e })
    (hc : x.cnt + 1 < symloopMax) (hl : (seen env t).length ≤ (copied s).p) :
    ∃ s', followLink env x t = .restart s' ∧ Pushed s s' (seen env t) ∧ s'.cnt = s.cnt + 1 := by
  have C := copied_inBounds B
  obtain ⟨e, rfl⟩ := hx
  obtain ⟨stack, p, hf, -, hd⟩ := followLink_restart (s := { copied s with errno := e }) C.size C.p_le L.ne_nil hl
  have X : InBounds { copied s with errno := e } := { C with }
  rcases followLink_bounds X L.ne_nil hc hf.symm with hfault | ⟨s', hs', B', -⟩
  · cases hfault
  · obtain rfl : _ = s' := Turn.restart.inj hs'
    refine ⟨_, hf, ⟨B', _, hd, ?_⟩, rfl⟩
    rw [← unread_copied L.toCopies, restAfter]
    split
    · exact Or.inr rfl
    · exact Or.inl rfl

variable (h env errnoSave atflags) in
theorem turn_copies (B : InBounds s) (N : Copies s) :
    turn h env errnoSave atflags s = compTurn h env errnoSave atflags (copied s) (component s) := by
  have hne : ¬ (component s = [] ∧ s.checkDir = false) := by
    rintro ⟨hc, hd⟩
    rw [N.named hc] at hd
    cases hd
  rw [turn_eq h env errnoSave atflags B, if_neg N.noSlash, if_neg hne, if_neg N.notDot, if_neg N.short]

variable (h env errnoSave) in
theorem turn_asks (B : InBounds s) (A : Asks atflags s) : turn h env errnoSave atflags s =
    getxattrTurn h env errnoSave (copied s) (piece s.output (component s)) (component s).length (component s = dotdot) := by
  have h1 : ¬ (component s = dotdot ∧ (copied s).output.length ≤ 3 * (copied s).nup) := by
    rintro ⟨hc, hl⟩
    exact absurd (A.up hc).1 (Nat.not_lt.mpr hl)
  have h2 : ¬ (component s = dotdot ∧ (copied s).checkDir = false ∨ followSymlink atflags = false) := by
    rintro (⟨hc, hd⟩ | hf)
    · have hck : (copied s).checkDir = true := (A.up hc).2
      rw [hck] at hd
      cases hd
    · rw [A.follow] at hf
      cases hf
  rw [turn_copies h env errnoSave atflags B A.toCopies]
  unfold compTurn
  rw [if_neg h1, if_neg h2]
  rfl

theorem turn_cases (B : InBounds s) : Asks atflags s ∨
    (∃ s', turn h env errnoSave atflags s = .next s' ∧ Passed s s') ∨ turn h env errnoSave atflags s = .leave s ∨
    ∃ e, turn h env errnoSave atflags s = .fail e := by
  by_cases h0 : s.stack[s.p]? = some '/'
  · rw [turn_eq h env errnoSave atflags B, if_pos h0]
    refine Or.inr (Or.inl ⟨_, rfl, next_slash B h0 ?_⟩)
    split <;> decide
  by_cases h1 : component s = [] ∧ s.checkDir = false
  · rw [turn_eq h env errnoSave atflags B, if_neg h0, if_pos h1]
    exact Or.inr (Or.inr (Or.inl rfl))
  by_cases h2 : component s = dot
  · rw [turn_eq h env errnoSave atflags B, if_neg h0, if_neg h1, if_pos h2]
    exact Or.inr (Or.inl ⟨_, rfl, next_dot B h0 h2⟩)
  by_cases h3 : Overlong s
  · rw [turn_eq h env errnoSave atflags B, if_neg h0, if_neg h1, if_neg h2, if_pos h3]
    exact Or.inr (Or.inr (Or.inr ⟨_, rfl⟩))
  have N : Copies s := by
    refine ⟨h0, fun hc => ?_, h2, h3⟩
    rw [not_and, Bool.not_eq_false] at h1
    exact h1 hc
  rw [turn_copies h env errnoSave atflags B N]
  unfold compTurn
  by_cases h4 : component s = dotdot ∧ (copied s).output.length ≤ 3 * (copied s).nup
  · rw [if_pos h4]
    exact Or.inr (Or.inl ⟨_, rfl, next_ups B N h4.1 h4.2⟩)
  rw [if_neg h4]
  have hup : component s = dotdot → 3 * s.nup < s.output.length := fun hc => Nat.not_le.mp fun hl => h4 ⟨hc, hl⟩
  by_cases h5 : component s = dotdot ∧ (copied s).checkDir = false ∨ followSymlink atflags = false
  · rw [if_pos h5]
    exact Or.inr (Or.inl (skipReadlink_passed B N ⟨_, rfl⟩ hup))
  · rw [not_or, not_and, Bool.not_eq_false, Bool.not_eq_false] at h5
    exact Or.inl { N with up := fun hc => ⟨hup hc, h5.1 hc⟩, follow := h5.2 }

theorem asks_cases (B : InBounds s) (A : Asks atflags s) :
    (∃ v, Redirects h atflags s v) ∨
    (∃ s', turn h env errnoSave atflags s = .next s' ∧ Passed s s') ∨ (∃ e, turn h env errnoSave atflags s = .fail e) ∨
      ∃ t x, Links h atflags s t ∧ t.length < (copied s).p ∧ (∃ e, x = { copied s with errno := e }) ∧
        x.cnt + 1 < symloopMax ∧ turn h env errnoSave atflags s = followLink env x t := by
  have hgo : ∀ x, (∃ e, x = { copied s with errno := e }) →
      (∀ v, getxattr h (addName s.output (component s)) (copied s).p = .ok v → v = []) →
      turn h env errnoSave atflags s =
        readlinkTurn h env errnoSave x (piece s.output (component s)) (component s).length (component s = dotdot) →
      (∃ s', turn h env errnoSave atflags s = .next s' ∧ Passed s s') ∨
        (∃ e, turn h env errnoSave atflags s = .fail e) ∨
        ∃ t x, Links h atflags s t ∧ t.length < (copied s).p ∧ (∃ e, x = { copied s with errno := e }) ∧
          x.cnt + 1 < symloopMax ∧ turn h env errnoSave atflags s = followLink env x t := by
    intro x hx hno hT
    rcases readlinkTurn_passed B A hx hT hno with hn | hf | ⟨t, L, hl, hc, hfl⟩
    · exact Or.inl hn
    · exact Or.inr (Or.inl hf)
    · refine Or.inr (Or.inr ⟨t, x, L, hl, hx, ?_, hfl⟩)
      have hxc : x.cnt = s.cnt := by
        obtain ⟨e, rfl⟩ := hx
        rfl
      have := B.cnt_lt
      omega
  have hT := turn_asks h env errnoSave B A
  unfold getxattrTurn at hT
  cases hv : getxattr h (addName s.output (component s)) (copied s).p with
  | error e =>
    have hv' : getxattr h ((copied s).output ++ piece s.output (component s)) (copied s).p = .error e := hv
    rw [hv'] at hT
    exact Or.inr (hgo _ ⟨_, rfl⟩ (by rw [hv]; nofun) hT)
  | ok v =>
    have hv' : getxattr h ((copied s).output ++ piece s.output (component s)) (copied s).p = .ok v := hv
    rw [hv'] at hT
    dsimp only at hT
    split at hT
    · exact Or.inr (Or.inr (Or.inl ⟨_, hT⟩))
    rename_i hsz
    split at hT
    · rename_i h0
      refine Or.inr (hgo _ ⟨_, rfl⟩ ?_ hT)
      rw [hv]
      rintro w hw
      cases hw
      exact List.length_eq_zero_iff.mp h0
    · rename_i h0
      exact Or.inl ⟨v, { A with value := hv, ne_nil := fun e => h0 (by rw [e]; rfl), ne_size := hsz }⟩

end

end Iamroot
