import Iamroot.Host

/-!
# `__path_sanitize`

The function takes leading `./`, then trailing `/.`, then trailing slashes off
a path. What it leaves is a part of the text that names the same components, but
for dots in front and for dots and empty ones at the end.
-/

namespace Iamroot

open FileTree

def stripDotSlash : Str → Str
  | '.' :: '/' :: s => if 3 < s.length + 2 ∧ s.head? ≠ some '/' then stripDotSlash s else '.' :: '/' :: s
  | s => s

/-- Strip trailing `/.`, on the reversed string. -/
def stripSlashDot : Str → Str
  | '.' :: '/' :: s => if 2 < s.length + 2 then stripSlashDot s else '.' :: '/' :: s
  | s => s

/-- Strip trailing slashes, on the reversed string. -/
def stripSlash : Str → Str
  | '/' :: s => if 1 < s.length + 1 then stripSlash s else '/' :: s
  | s => s

def pathSanitize (path : Str) : Str :=
  if path = [] then path
  else
    let path := stripDotSlash path
    let path := (stripSlashDot path.reverse).reverse
    let path := (stripSlash path.reverse).reverse
    if path.length = 0 then dot else path

/-! ## What is left -/

structure Trims (s s' : Str) : Prop where
  part : s' <:+: s
  lead : isAbs s = true → s' <+: s
  ne_nil : s ≠ [] → s' ≠ []
  abs : isAbs s' = isAbs s
  comps : ∃ pre post, parse s = pre ++ (parse s' ++ post) ∧ (∀ c ∈ pre, c = .dot) ∧ ∀ c ∈ post, c = .empty ∨ c = .dot

theorem Trims.refl (s : Str) : Trims s s :=
  ⟨List.infix_rfl, fun _ => List.prefix_rfl, fun h => h, rfl, [], [], by simp, nofun, nofun⟩

theorem Trims.trans {s s' s'' : Str} (h : Trims s s') (h' : Trims s' s'') : Trims s s'' where
  part := h'.part.trans h.part
  lead hs := (h'.lead (h.abs.trans hs)).trans (h.lead hs)
  ne_nil hs := h'.ne_nil (h.ne_nil hs)
  abs := h'.abs.trans h.abs
  comps := by
    obtain ⟨pre, post, hp, hpre, hpost⟩ := h.comps
    obtain ⟨pre', post', hp', hpre', hpost'⟩ := h'.comps
    refine ⟨pre ++ pre', post' ++ post, by simp only [hp, hp', List.append_assoc], fun c hc => ?_, fun c hc => ?_⟩
    · exact (List.mem_append.mp hc).elim (hpre c) (hpre' c)
    · exact (List.mem_append.mp hc).elim (hpost' c) (hpost c)

theorem parse_concat_slash (s : Str) : parse (s ++ ['/']) = parse s ++ [.empty] := parse_append s []

theorem parse_concat_dot (s : Str) : parse (s ++ ['/', '.']) = parse s ++ [.dot] := parse_append s dot

theorem isAbs_append_of_ne_nil {s : Str} (hs : s ≠ []) (t : Str) : isAbs (s ++ t) = isAbs s := by
  unfold isAbs
  rw [List.head?_append_of_ne_nil _ hs]

theorem trims_dotSlash : ∀ s : Str, Trims s (stripDotSlash s)
  | [] => .refl []
  | [x] => by
    have : stripDotSlash [x] = [x] := by unfold stripDotSlash; split <;> simp_all
    rw [this]
    exact .refl [x]
  | x :: y :: s => by
    by_cases hxy : x = '.' ∧ y = '/'
    · obtain ⟨rfl, rfl⟩ := hxy
      rw [stripDotSlash]
      split
      · rename_i h
        refine Trims.trans ⟨?_, nofun, ?_, ?_, ?_⟩ (trims_dotSlash s)
        · exact ((List.suffix_cons '/' s).trans (List.suffix_cons '.' _)).isInfix
        · rintro - rfl
          simp at h
        · have : isAbs s = false := by simp [isAbs, h.2]
          rw [this]; rfl
        · exact ⟨[.dot], [], by rw [List.append_nil]; exact parse_append dot s, by simp, nofun⟩
      · exact .refl _
    · have : stripDotSlash (x :: y :: s) = x :: y :: s := by
        unfold stripDotSlash
        split
        · rename_i h
          simp only [List.cons.injEq] at h
          exact absurd ⟨h.1, h.2.1⟩ hxy
        · rfl
      rw [this]
      exact .refl _

theorem trims_slashDot : ∀ s : Str, Trims s.reverse (stripSlashDot s).reverse
  | [] => .refl []
  | [x] => by
    have : stripSlashDot [x] = [x] := by unfold stripSlashDot; split <;> simp_all
    rw [this]
    exact .refl _
  | x :: y :: s => by
    by_cases hxy : x = '.' ∧ y = '/'
    · obtain ⟨rfl, rfl⟩ := hxy
      rw [stripSlashDot]
      split
      · rename_i h
        have hs : s.reverse ≠ [] := by
          rw [ne_eq, List.reverse_eq_nil_iff]
          rintro rfl
          simp at h
        have he : ('.' :: '/' :: s).reverse = s.reverse ++ ['/', '.'] := by simp
        refine Trims.trans ⟨?_, fun _ => ?_, fun _ => hs, ?_, ?_⟩ (trims_slashDot s)
        · rw [he]
          exact (List.prefix_append _ _).isInfix
        · rw [he]
          exact List.prefix_append _ _
        · rw [he, isAbs_append_of_ne_nil hs]
        · exact ⟨[], [.dot], by rw [he, parse_concat_dot]; rfl, nofun, by simp⟩
      · exact .refl _
    · have : stripSlashDot (x :: y :: s) = x :: y :: s := by
        unfold stripSlashDot
        split
        · rename_i h
          simp only [List.cons.injEq] at h
          exact absurd ⟨h.1, h.2.1⟩ hxy
        · rfl
      rw [this]
      exact .refl _

theorem trims_slash : ∀ s : Str, Trims s.reverse (stripSlash s).reverse
  | [] => .refl []
  | x :: s => by
    by_cases hx : x = '/'
    · subst hx
      rw [stripSlash]
      split
      · rename_i h
        have hs : s.reverse ≠ [] := by
          rw [ne_eq, List.reverse_eq_nil_iff]
          rintro rfl
          simp at h
        refine Trims.trans ⟨?_, fun _ => ?_, fun _ => hs, ?_, ?_⟩ (trims_slash s)
        · rw [List.reverse_cons]
          exact (List.prefix_append _ _).isInfix
        · rw [List.reverse_cons]
          exact List.prefix_append _ _
        · rw [List.reverse_cons, isAbs_append_of_ne_nil hs]
        · exact ⟨[], [.empty], by rw [List.reverse_cons, parse_concat_slash]; rfl, nofun, by simp⟩
      · exact .refl _
    · have : stripSlash (x :: s) = x :: s := by unfold stripSlash; split <;> simp_all
      rw [this]
      exact .refl _

theorem Trims.of_reverse {f : Str → Str} (h : ∀ s, Trims s.reverse (f s).reverse) (s : Str) :
    Trims s (f s.reverse).reverse := by
  have := h s.reverse
  rwa [List.reverse_reverse] at this

theorem trims_sanitize (s : Str) : Trims s (pathSanitize s) := by
  unfold pathSanitize
  split
  · exact .refl s
  · have h := ((trims_dotSlash s).trans (Trims.of_reverse trims_slashDot _)).trans (Trims.of_reverse trims_slash _)
    have hne := List.length_pos_of_ne_nil (h.ne_nil ‹_›)
    simp only
    rw [if_neg (by omega)]
    exact h

/-! ## What stands in front stays -/

theorem stripSlashDot_keeps {b : Str} (hb : b.head? ≠ some '/') (hd : ¬ ['.', '/'] <+: b) :
    ∀ a : Str, b <:+ stripSlashDot (a ++ b)
  | [] => by
    have h : stripSlashDot b = b := by
      unfold stripSlashDot
      split
      · rename_i s
        exact absurd ⟨s, rfl⟩ hd
      · rfl
    rw [List.nil_append, h]
  | [x] => by
    have h : stripSlashDot (x :: b) = x :: b := by
      unfold stripSlashDot
      split
      · rename_i s he
        rw [(List.cons.inj he).2] at hb
        exact absurd rfl hb
      · rfl
    rw [List.singleton_append, h]
    exact List.suffix_cons x b
  | x :: y :: a => by
    by_cases hxy : x = '.' ∧ y = '/'
    · obtain ⟨rfl, rfl⟩ := hxy
      rw [List.cons_append, List.cons_append, stripSlashDot]
      split
      · exact stripSlashDot_keeps hb hd a
      · exact ⟨'.' :: '/' :: a, rfl⟩
    · have h : stripSlashDot (x :: y :: (a ++ b)) = x :: y :: (a ++ b) := by
        unfold stripSlashDot
        split
        · rename_i s he
          simp only [List.cons.injEq] at he
          exact absurd ⟨he.1, he.2.1⟩ hxy
        · rfl
      rw [List.cons_append, List.cons_append, h]
      exact ⟨x :: y :: a, rfl⟩

theorem stripSlash_keeps {b : Str} (hb : b.head? ≠ some '/') : ∀ a : Str, b <:+ stripSlash (a ++ b)
  | [] => by
    have h : stripSlash b = b := by
      unfold stripSlash
      split
      · exact absurd rfl hb
      · rfl
    rw [List.nil_append, h]
  | x :: a => by
    by_cases hx : x = '/'
    · subst hx
      rw [List.cons_append, stripSlash]
      split
      · exact stripSlash_keeps hb a
      · exact ⟨'/' :: a, rfl⟩
    · have h : stripSlash (x :: (a ++ b)) = x :: (a ++ b) := by
        unfold stripSlash
        split
        · exact absurd (List.cons.inj ‹_›).1 hx
        · rfl
      rw [List.cons_append, h]
      exact ⟨x :: a, rfl⟩

theorem sanitize_keeps {b : Str} (ha : isAbs b = true) (hb : b.reverse.head? ≠ some '/')
    (hd : ¬ ['.', '/'] <+: b.reverse) (s : Str) : b <+: pathSanitize (b ++ s) := by
  have hne : b ++ s ≠ [] := fun h => by
    rw [(List.append_eq_nil_iff.mp h).1] at ha
    cases ha
  have hfirst : stripDotSlash (b ++ s) = b ++ s := by
    unfold stripDotSlash
    split
    · rename_i he
      cases b with
      | nil => cases ha
      | cons x b =>
        rw [(List.cons.inj he).1] at ha
        cases ha
    · rfl
  obtain ⟨u, hu⟩ := stripSlashDot_keeps hb hd s.reverse
  obtain ⟨v, hv⟩ := stripSlash_keeps hb u
  have hs : stripSlashDot (b ++ s).reverse = u ++ b.reverse := by rw [List.reverse_append, hu]
  have hv' : (stripSlash (u ++ b.reverse)).reverse = b ++ v.reverse := by
    rw [← hv, List.reverse_append, List.reverse_reverse]
  rw [pathSanitize, if_neg hne]
  simp only [hfirst, hs, List.reverse_reverse, hv']
  split
  · rename_i h
    have h0 : b = [] := by
      rw [List.length_append] at h
      exact List.length_eq_zero_iff.mp (by omega)
    rw [h0] at ha
    cases ha
  · exact List.prefix_append b v.reverse

theorem sanitize_eq {b : Str} (ha : isAbs b = true) (hb : b.reverse.head? ≠ some '/') (hd : ¬ ['.', '/'] <+: b.reverse)
    {s : Str} (hs : s = [] ∨ s = ['/']) : pathSanitize (b ++ s) = b := by
  have hpre := sanitize_keeps ha hb hd s
  rcases hs with rfl | rfl
  · have hlen := (trims_sanitize (b ++ [])).part.length_le
    rw [List.append_nil] at hlen hpre ⊢
    exact (hpre.eq_of_length_le hlen).symm
  · obtain ⟨x, w, hx⟩ : ∃ x w, b.reverse = x :: w := by
      cases h : b.reverse with
      | nil =>
        rw [List.reverse_eq_nil_iff.mp h] at ha
        cases ha
      | cons x w => exact ⟨x, w, rfl⟩
    have hfirst : stripDotSlash (b ++ ['/']) = b ++ ['/'] := by
      unfold stripDotSlash
      split
      · rename_i he
        cases b with
        | nil => cases ha
        | cons y b =>
          rw [(List.cons.inj he).1] at ha
          cases ha
      · rfl
    have hdot : stripSlashDot ('/' :: b.reverse) = '/' :: b.reverse := rfl
    have hslash : stripSlash ('/' :: b.reverse) = b.reverse := by
      have hxs : x ≠ '/' := fun e => hb (by rw [hx, e]; rfl)
      rw [stripSlash, if_pos (by rw [hx, List.length_cons]; omega), hx, stripSlash]
      exact fun _ e => hxs (List.cons.inj e).1
    rw [pathSanitize, if_neg (by simp)]
    simp only [hfirst, List.reverse_append, List.reverse_cons, List.reverse_nil, List.nil_append, List.singleton_append,
      hdot, List.reverse_reverse, hslash]
    rw [if_neg]
    rw [← List.length_reverse, hx]
    simp

end Iamroot
