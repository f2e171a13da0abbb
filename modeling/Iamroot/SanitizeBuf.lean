import Iamroot.Sanitize

/-!
# `__path_sanitize` in its buffer

The three loops of the function move and cut the string where it stands, with its
length in a variable. They leave what the three strippings of the text say, with
a NUL behind it, and no byte outside of the buffer is read or written.
-/

namespace Iamroot

open FileTree

/-- `path[i] = c`; `none` is a write outside of the buffer. -/
def poke (b : List Char) (i : Nat) (c : Char) : Option (List Char) := if i < b.length then some (b.set i c) else none

/-- `for (s = path; *(s+2); s++) *s = *(s+2);` -/
def shiftDown : Nat → Nat → List Char → Option (List Char)
  | 0, _, _ => none
  | fuel + 1, s, b => do
    let c ← b[s + 2]?
    if c = nul then some b
    else do
      let b ← poke b s c
      shiftDown fuel (s + 1) b

def stripLeading : Nat → List Char → Option (List Char × Nat)
  | len + 2, b =>
    if 3 < len + 2 ∧ b[0]? = some '.' ∧ b[1]? = some '/' ∧ b[2]? ≠ some '/' then do
      let b ← shiftDown b.length 0 b
      let b ← poke b len nul
      stripLeading len b
    else some (b, len + 2)
  | len, b => some (b, len)

def stripTrailingDot : Nat → List Char → Option (List Char × Nat)
  | len + 2, b =>
    if 2 < len + 2 ∧ b[len]? = some '/' ∧ b[len + 1]? = some '.' then do
      let b ← poke b len nul
      stripTrailingDot len b
    else some (b, len + 2)
  | len, b => some (b, len)

def stripTrailing : Nat → List Char → Option (List Char × Nat)
  | len + 1, b =>
    if 1 < len + 1 ∧ b[len]? = some '/' then do
      let b ← poke b len nul
      stripTrailing len b
    else some (b, len + 1)
  | 0, b => some (b, 0)

def pathSanitizeBuf (b : List Char) (bufsiz : Nat) : Option (List Char) := do
  let c ← b.head?
  if c = nul then some b
  else do
    let (b, len) ← stripLeading (strnlen (cstr b) bufsiz) b
    let (b, len) ← stripTrailingDot len b
    let (b, len) ← stripTrailing len b
    if len = 0 then do
      let b ← poke b 0 '.'
      poke b 1 nul
    else some b

/-! ## One loop -/

def Buffers (n : Nat) (b : List Char) (s : Str) : Prop := b.length = n ∧ ∃ rest, b = s ++ nul :: rest

variable {n : Nat} {b rest : List Char} {p q s : Str}

theorem poke_append (s : Str) (x c : Char) (rest : List Char) : poke (s ++ x :: rest) s.length c = some (s ++ c :: rest) := by
  rw [poke, if_pos (by simp), List.set_append_right _ _ (Nat.le_refl _), Nat.sub_self]
  rfl

theorem shiftDown_eq (q : Str) (hq : nul ∉ q) {fuel : Nat} (hf : q.length < fuel) (s : Str) (x y : Char) (rest : List Char) :
    ∃ x' y', shiftDown fuel s.length (s ++ x :: y :: (q ++ nul :: rest)) = some (s ++ q ++ x' :: y' :: nul :: rest) := by
  induction q generalizing fuel s x y with
  | nil =>
    obtain ⟨fuel, rfl⟩ := Nat.exists_eq_succ_of_ne_zero (Nat.ne_of_gt (Nat.zero_lt_of_lt hf))
    refine ⟨x, y, ?_⟩
    have hget : (s ++ x :: y :: ([] ++ nul :: rest))[s.length + 2]? = some nul := by
      rw [List.getElem?_append_right (by omega), Nat.add_sub_cancel_left]
      rfl
    rw [shiftDown, hget, List.append_nil]
    rfl
  | cons c q ih =>
    obtain ⟨fuel, rfl⟩ := Nat.exists_eq_succ_of_ne_zero (Nat.ne_of_gt (Nat.zero_lt_of_lt hf))
    obtain ⟨hc, hq'⟩ := not_or.mp (fun h => hq (List.mem_cons.mpr h))
    have hget : (s ++ x :: y :: (c :: q ++ nul :: rest))[s.length + 2]? = some c := by
      rw [List.getElem?_append_right (by omega), Nat.add_sub_cancel_left]
      rfl
    obtain ⟨x', y', h⟩ := ih hq' (by simpa using hf) (s ++ [c]) y c
    refine ⟨x', y', ?_⟩
    rw [shiftDown, hget]
    show (if c = nul then _ else _) = _
    rw [if_neg (Ne.symm hc), poke_append]
    rw [List.length_append, List.append_assoc] at h
    simpa using h

theorem exists_cons_cons {s : Str} (h : 1 < s.length) : ∃ x y t, s = x :: y :: t := by
  obtain ⟨x, s, rfl⟩ := List.exists_cons_of_ne_nil (List.ne_nil_of_length_pos (Nat.lt_of_succ_lt h))
  obtain ⟨y, t, rfl⟩ := List.exists_cons_of_ne_nil (List.ne_nil_of_length_pos (Nat.lt_of_succ_lt_succ h))
  exact ⟨x, y, t, rfl⟩

theorem stripLeading_stop {len : Nat} (h : ¬ (3 < len ∧ b[0]? = some '.' ∧ b[1]? = some '/' ∧ b[2]? ≠ some '/')) :
    stripLeading len b = some (b, len) := by
  match len, h with
  | 0, _ => rfl
  | 1, _ => rfl
  | len + 2, h => rw [stripLeading, if_neg h]

theorem stripLeading_eq (hb : Buffers n b p) (hp : nul ∉ p) :
    ∃ b', stripLeading p.length b = some (b', (stripDotSlash p).length) ∧ Buffers n b' (stripDotSlash p) := by
  induction p using stripDotSlash.induct generalizing b with
  | case1 s h ih =>
    obtain ⟨hlen, rest, rfl⟩ := hb
    have hs : nul ∉ s := fun hm => hp (List.mem_cons_of_mem _ (List.mem_cons_of_mem _ hm))
    have h2 : ('.' :: '/' :: s ++ nul :: rest)[2]? ≠ some '/' := by
      show (s ++ nul :: rest)[0]? ≠ some '/'
      rw [List.getElem?_append_left (by omega), ← List.head?_eq_getElem?]
      exact h.2
    have hfuel : s.length < ('.' :: '/' :: s ++ nul :: rest).length := by simp; omega
    obtain ⟨x, y, hshift⟩ : ∃ x y, shiftDown ('.' :: '/' :: s ++ nul :: rest).length 0 ('.' :: '/' :: s ++ nul :: rest) =
        some (s ++ x :: y :: nul :: rest) := shiftDown_eq s hs hfuel [] '.' '/' rest
    have hpoke := poke_append s x nul (y :: nul :: rest)
    have hstep : stripLeading ('.' :: '/' :: s).length ('.' :: '/' :: s ++ nul :: rest) =
        stripLeading s.length (s ++ nul :: y :: nul :: rest) := by
      show stripLeading (s.length + 2) _ = _
      rw [stripLeading, if_pos ⟨h.1, rfl, rfl, h2⟩]
      show (shiftDown _ 0 _).bind _ = _
      rw [hshift]
      show (poke _ s.length nul).bind _ = _
      rw [hpoke]
      rfl
    rw [hstep, stripDotSlash, if_pos h]
    exact ih ⟨by simp at hlen ⊢; omega, _, rfl⟩ hs
  | case2 s h =>
    rw [stripDotSlash, if_neg h]
    obtain ⟨hlen, rest, rfl⟩ := hb
    refine ⟨_, stripLeading_stop ?_, hlen, rest, rfl⟩
    rintro ⟨h1, -, -, h2⟩
    refine h ⟨h1, fun hs => h2 ?_⟩
    show (s ++ nul :: rest)[0]? = some '/'
    rw [← List.head?_eq_getElem?, List.head?_append, hs]
    rfl
  | case3 s h =>
    have hs : stripDotSlash s = s := by
      unfold stripDotSlash
      split
      · exact absurd rfl (h _)
      · rfl
    obtain ⟨hlen, rest, rfl⟩ := hb
    rw [hs]
    refine ⟨_, stripLeading_stop ?_, hlen, rest, rfl⟩
    rintro ⟨h1, h2, h3, -⟩
    obtain ⟨x, y, t, rfl⟩ : ∃ x y t, s = x :: y :: t := exists_cons_cons (by omega)
    refine h t ?_
    rw [Option.some.inj h2, Option.some.inj h3]

theorem stripTrailingDot_stop {len : Nat} (h : ∀ k, len = k + 2 → ¬ (2 < len ∧ b[k]? = some '/' ∧ b[k + 1]? = some '.')) :
    stripTrailingDot len b = some (b, len) := by
  match len, h with
  | 0, _ => rfl
  | 1, _ => rfl
  | len + 2, h => rw [stripTrailingDot, if_neg (h len rfl)]

theorem stripTrailingDot_eq (r : Str) (hb : Buffers n b r.reverse) : ∃ b',
    stripTrailingDot r.length b = some (b', (stripSlashDot r).length) ∧ Buffers n b' (stripSlashDot r).reverse := by
  induction r using stripSlashDot.induct generalizing b with
  | case1 s h ih =>
    obtain ⟨hlen, rest, rfl⟩ := hb
    have hrev : ('.' :: '/' :: s).reverse ++ nul :: rest = s.reverse ++ '/' :: '.' :: nul :: rest := by simp
    have hget : ∀ i, (s.reverse ++ '/' :: '.' :: nul :: rest)[s.length + i]? = ('/' :: '.' :: nul :: rest)[i]? := by
      intro i
      rw [List.getElem?_append_right (by simp), List.length_reverse, Nat.add_sub_cancel_left]
    have hpoke := poke_append s.reverse '/' nul ('.' :: nul :: rest)
    rw [List.length_reverse] at hpoke
    have hstep : stripTrailingDot ('.' :: '/' :: s).length (s.reverse ++ '/' :: '.' :: nul :: rest) =
        stripTrailingDot s.length (s.reverse ++ nul :: '.' :: nul :: rest) := by
      show stripTrailingDot (s.length + 2) _ = _
      rw [stripTrailingDot, if_pos ⟨h, hget 0, hget 1⟩]
      show (poke _ s.length nul).bind _ = _
      rw [hpoke]
      rfl
    rw [hrev, hstep, stripSlashDot, if_pos h]
    exact ih ⟨by simpa using hlen, _, rfl⟩
  | case2 s h =>
    rw [stripSlashDot, if_neg h]
    refine ⟨b, stripTrailingDot_stop fun k hk hc => h ?_, hb⟩
    simpa using hc.1
  | case3 s h =>
    have hs : stripSlashDot s = s := by
      unfold stripSlashDot
      split
      · exact absurd rfl (h _)
      · rfl
    rw [hs]
    refine ⟨b, stripTrailingDot_stop fun k hk hc => ?_, hb⟩
    obtain ⟨-, rest, rfl⟩ := hb
    obtain ⟨x, y, t, rfl⟩ : ∃ x y t, s = x :: y :: t := exists_cons_cons (by omega)
    obtain rfl : t.length = k := by simpa using hk
    have hrev : (x :: y :: t).reverse ++ nul :: rest = t.reverse ++ y :: x :: nul :: rest := by simp
    have hget : ∀ i, (t.reverse ++ y :: x :: nul :: rest)[t.length + i]? = (y :: x :: nul :: rest)[i]? := by
      intro i
      rw [List.getElem?_append_right (by simp), List.length_reverse, Nat.add_sub_cancel_left]
    rw [hrev] at hc
    have h1 := (hget 0).symm.trans hc.2.1
    have h2 := (hget 1).symm.trans hc.2.2
    refine h t ?_
    rw [Option.some.inj h1, Option.some.inj h2]

theorem stripTrailing_eq (r : Str) (hb : Buffers n b r.reverse) : ∃ b',
    stripTrailing r.length b = some (b', (stripSlash r).length) ∧ Buffers n b' (stripSlash r).reverse := by
  induction r using stripSlash.induct generalizing b with
  | case1 s h ih =>
    obtain ⟨hlen, rest, rfl⟩ := hb
    have hrev : ('/' :: s).reverse ++ nul :: rest = s.reverse ++ '/' :: nul :: rest := by simp
    have hget : (s.reverse ++ '/' :: nul :: rest)[s.length]? = some '/' := by
      rw [List.getElem?_append_right (by simp), List.length_reverse, Nat.sub_self]
      rfl
    have hpoke := poke_append s.reverse '/' nul (nul :: rest)
    rw [List.length_reverse] at hpoke
    have hstep : stripTrailing ('/' :: s).length (s.reverse ++ '/' :: nul :: rest) =
        stripTrailing s.length (s.reverse ++ nul :: nul :: rest) := by
      show stripTrailing (s.length + 1) _ = _
      rw [stripTrailing, if_pos ⟨h, hget⟩]
      show (poke _ s.length nul).bind _ = _
      rw [hpoke]
      rfl
    rw [hrev, hstep, stripSlash, if_pos h]
    exact ih ⟨by simpa using hlen, _, rfl⟩
  | case2 s h =>
    rw [stripSlash, if_neg h]
    refine ⟨b, ?_, hb⟩
    show stripTrailing (s.length + 1) b = some (b, s.length + 1)
    rw [stripTrailing, if_neg fun hc => h hc.1]
  | case3 s h =>
    have hs : stripSlash s = s := by
      unfold stripSlash
      split
      · exact absurd rfl (h _)
      · rfl
    rw [hs]
    refine ⟨b, ?_, hb⟩
    obtain ⟨-, rest, rfl⟩ := hb
    cases s with
    | nil => rfl
    | cons x t =>
      show stripTrailing (t.length + 1) _ = some (_, t.length + 1)
      rw [stripTrailing, if_neg]
      rintro ⟨-, hx⟩
      rw [List.reverse_cons, List.append_assoc, List.getElem?_append_right (by simp), List.length_reverse, Nat.sub_self] at hx
      refine h t ?_
      rw [Option.some.inj hx]

/-! ## The whole function -/

/-- What stands in the buffer is what the text says. -/
theorem pathSanitizeBuf_eq (hb : Buffers n b p) (hp : nul ∉ p) {bufsiz : Nat} (hsize : p.length ≤ bufsiz) :
    ∃ b', pathSanitizeBuf b bufsiz = some b' ∧ Buffers n b' (pathSanitize p) := by
  by_cases hne : p = []
  · obtain ⟨-, rest, hrest⟩ := id hb
    refine ⟨b, ?_, by rw [pathSanitize, if_pos hne]; exact hb⟩
    rw [hrest, hne]
    rfl
  · obtain ⟨b₁, h1, hb1⟩ := stripLeading_eq hb hp
    generalize hp1 : stripDotSlash p = p1 at h1 hb1
    obtain ⟨b₂, h2, hb2⟩ := stripTrailingDot_eq p1.reverse (by rwa [List.reverse_reverse])
    rw [List.length_reverse] at h2
    generalize hp2 : stripSlashDot p1.reverse = p2 at h2 hb2
    obtain ⟨b₃, h3, hb3⟩ := stripTrailing_eq p2 hb2
    generalize hp3 : stripSlash p2 = p3 at h3 hb3
    have hlen : p3.length ≠ 0 := by
      have h := ((trims_dotSlash p).trans (Trims.of_reverse trims_slashDot _)).trans (Trims.of_reverse trims_slash _)
      have hp3' := h.ne_nil hne
      rw [hp1, hp2, List.reverse_reverse, hp3] at hp3'
      intro h0
      rw [List.eq_nil_of_length_eq_zero h0] at hp3'
      exact hp3' rfl
    refine ⟨b₃, ?_, ?_⟩
    · obtain ⟨-, rest, hrest⟩ := hb
      obtain ⟨c, t, rfl⟩ := List.exists_cons_of_ne_nil hne
      have hc : c ≠ nul := fun e => hp (e ▸ List.mem_cons_self)
      have hstr : strnlen (cstr b) bufsiz = (c :: t).length := by
        rw [hrest, cstr_append_nul _ _ hp, strnlen]
        exact Nat.min_eq_left hsize
      have hhead : b.head? = some c := by rw [hrest]; rfl
      rw [pathSanitizeBuf, hhead]
      show (if c = nul then _ else _) = _
      rw [if_neg hc, hstr, h1]
      show (stripTrailingDot _ b₁).bind _ = _
      rw [h2]
      show (stripTrailing _ b₂).bind _ = _
      rw [h3]
      exact if_neg hlen
    · rw [pathSanitize, if_neg hne]
      simp only [hp1, hp2, List.reverse_reverse, hp3]
      rwa [if_neg (by rwa [List.length_reverse])]

/-- The components of a path, without the empty ones and the dots. -/
def meaning (p : Str) : List (Comp Str) := (parse p).filter fun c => c ≠ .empty ∧ c ≠ .dot

theorem meaning_trims (h : Trims p s) : meaning s = meaning p := by
  obtain ⟨pre, post, hparse, hpre, hpost⟩ := h.comps
  have hnil : ∀ cs : List (Comp Str), (∀ c ∈ cs, c = .empty ∨ c = .dot) → cs.filter (fun c => c ≠ .empty ∧ c ≠ .dot) = [] := by
    intro cs hcs
    refine List.filter_eq_nil_iff.mpr fun c hc => ?_
    rcases hcs c hc with rfl | rfl <;> simp
  rw [meaning, meaning, hparse, List.filter_append, List.filter_append, hnil pre fun c hc => .inr (hpre c hc), hnil post hpost,
    List.append_nil, List.nil_append]

/-- A path in a large enough buffer is sanitised in place: what is left in the buffer is a string that is absolute when
the path was, has its components, is no longer than it, and is empty when it was. -/
theorem pathSanitize_meaning (p : Str) (rest : List Char) {bufsiz : Nat} (hp : nul ∉ p) (hsize : p.length < bufsiz) :
    ∃ b, pathSanitizeBuf (p ++ nul :: rest) bufsiz = some b ∧ b.length = (p ++ nul :: rest).length ∧
      isAbs (cstr b) = isAbs p ∧ meaning (cstr b) = meaning p ∧ (cstr b).length ≤ p.length ∧ (cstr b = [] ↔ p = []) := by
  obtain ⟨b, hb, hlen, rest', rfl⟩ := pathSanitizeBuf_eq ⟨rfl, rest, rfl⟩ hp (Nat.le_of_lt hsize)
  have h := trims_sanitize p
  have hstr : cstr (pathSanitize p ++ nul :: rest') = pathSanitize p := by
    refine cstr_append_nul _ _ fun hm => hp ?_
    exact h.part.subset hm
  refine ⟨_, hb, hlen, ?_⟩
  rw [hstr]
  refine ⟨h.abs, meaning_trims h, h.part.length_le, fun hs => ?_, fun hs => ?_⟩
  · by_contra hne
    exact h.ne_nil hne hs
  · rw [hs]
    rfl

/-- `././a//b/./` in a buffer of 16 bytes. -/
theorem pathSanitize_meaning_dots : ∃ b, pathSanitizeBuf ("././a//b/./".toList ++ nul :: ['x', 'y', 'z', 't']) 16 = some b ∧
    isAbs (cstr b) = false ∧ meaning (cstr b) = [.name ['a'], .name ['b']] ∧ (cstr b).length ≤ 11 := by
  obtain ⟨b, hb, -, habs, hmeaning, hlen, -⟩ :=
    pathSanitize_meaning "././a//b/./".toList ['x', 'y', 'z', 't'] (by decide) (show _ < 16 by decide)
  exact ⟨b, hb, habs, hmeaning, hlen⟩

end Iamroot
