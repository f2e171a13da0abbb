import Iamroot.SanitizeBuf

/-!
# What one pass of `__path_sanitize` leaves

Each of the three loops runs to its own end. Taking the trailing slashes off can
show another `/.` all the same, and the lengths that guard the loops keep `./c`
and `/.` out of them. On every other path one pass reaches the normal form, and
a second pass finds nothing to do.
-/

namespace Iamroot

def repeated (w : Str) (k : Nat) : Str := (List.replicate k w).flatten

def dotSlash : Str := ['.', '/']

def slashDot : Str := ['/', '.']

/-- No leading `./` before a component, no trailing `/.`, no trailing `/` but in `/` itself. -/
structure Normal (s : Str) : Prop where
  lead : ∀ c t, s = dotSlash ++ c :: t → c = '/'
  dot : ¬ slashDot <:+ s
  slash : ['/'] <:+ s → s = ['/']

inductive Stuck : Str → Prop
  /-- `./` before a component of one character -/
  | lead (k : Nat) (c : Char) : c ≠ '/' → c ≠ '.' → Stuck (repeated dotSlash (k + 1) ++ [c])
  /-- nothing but `/.` -/
  | dots (k : Nat) : Stuck (repeated slashDot (k + 1))
  /-- a `/.` behind which slashes are taken off, where the `/` is not one of the leading `./` -/
  | shown (s : Str) (m j : Nat) : (∀ i, s ++ ['/'] ≠ repeated dotSlash (i + 1)) →
      Stuck (s ++ slashDot ++ List.replicate (m + 1) '/' ++ repeated slashDot j)

variable {p q s t : Str} {n : Nat}

@[simp] theorem repeated_zero (w : Str) : repeated w 0 = [] := rfl

theorem repeated_succ (w : Str) (k : Nat) : repeated w (k + 1) = w ++ repeated w k := rfl

theorem repeated_concat (w : Str) (k : Nat) : repeated w (k + 1) = repeated w k ++ w := by
  rw [repeated, List.replicate_succ', List.flatten_append]
  simp [repeated]

theorem repeated_add (w : Str) (i k : Nat) : repeated w (i + k) = repeated w i ++ repeated w k := by
  rw [repeated, ← List.replicate_append_replicate, List.flatten_append]
  rfl

theorem reverse_repeated (w : Str) (k : Nat) : (repeated w k).reverse = repeated w.reverse k := by
  simp [repeated, List.reverse_flatten]

theorem length_repeated (w : Str) (k : Nat) : (repeated w k).length = k * w.length := by simp [repeated]

theorem repeated_append_eq {w : Str} (hw : w ≠ []) {i k : Nat} (h : repeated w i ++ s = repeated w k) :
    ∃ d, k = i + d ∧ s = repeated w d := by
  have hlen := congrArg List.length h
  rw [List.length_append, length_repeated, length_repeated] at hlen
  obtain ⟨d, rfl⟩ := Nat.exists_eq_add_of_le (Nat.le_of_mul_le_mul_right (by omega : i * w.length ≤ k * w.length)
    (List.length_pos_of_ne_nil hw))
  rw [repeated_add] at h
  exact ⟨d, rfl, List.append_cancel_left h⟩

/-! ## The loops, one by one -/

theorem head_ne_slash {c : Char} (hc : c ≠ '/') (s : Str) : (c :: s).head? ≠ some '/' := fun h => hc (Option.some.inj h)

theorem stripDotSlash_of_not (h : ∀ t, s ≠ dotSlash ++ t) : stripDotSlash s = s := by
  unfold stripDotSlash
  split
  · exact absurd rfl (h _)
  · rfl

theorem stripSlashDot_of_not (h : ¬ dotSlash <+: s) : stripSlashDot s = s := by
  unfold stripSlashDot
  split
  · exact absurd ⟨_, rfl⟩ h
  · rfl

theorem stripSlash_of_not (h : s.head? ≠ some '/') : stripSlash s = s := by
  unfold stripSlash
  split
  · exact absurd rfl h
  · rfl

theorem stripDotSlash_repeated (hlen : 1 < s.length) (hs : s.head? ≠ some '/') (k : Nat) :
    stripDotSlash (repeated dotSlash k ++ s) = stripDotSlash s := by
  induction k with
  | zero => rfl
  | succ k ih =>
    rw [repeated_succ, List.append_assoc]
    show stripDotSlash ('.' :: '/' :: (repeated dotSlash k ++ s)) = _
    have hhead : (repeated dotSlash k ++ s).head? ≠ some '/' := by
      cases k with
      | zero => exact hs
      | succ k => exact head_ne_slash (by decide) _
    rw [stripDotSlash, if_pos ⟨by rw [List.length_append]; omega, hhead⟩, ih]

theorem stripDotSlash_split (p : Str) : ∃ i, p = repeated dotSlash i ++ stripDotSlash p ∧
    (0 < i → (stripDotSlash p).head? ≠ some '/') ∧
    ∀ t, stripDotSlash p = dotSlash ++ t → t.length ≤ 1 ∨ t.head? = some '/' := by
  induction p using stripDotSlash.induct with
  | case1 s h ih =>
    obtain ⟨i, hs, hhead, hstop⟩ := ih
    rw [stripDotSlash, if_pos h]
    refine ⟨i + 1, ?_, fun _ => ?_, hstop⟩
    · rw [repeated_succ, List.append_assoc, ← hs]
      rfl
    · cases i with
      | zero => rw [← show s = stripDotSlash s from hs]; exact h.2
      | succ i => exact hhead (Nat.succ_pos i)
  | case2 s h =>
    rw [stripDotSlash, if_neg h]
    refine ⟨0, rfl, fun h0 => absurd h0 (Nat.lt_irrefl 0), fun t ht => ?_⟩
    obtain rfl : s = t := (List.cons.inj (List.cons.inj ht).2).2
    by_cases hlen : s.length ≤ 1
    · exact .inl hlen
    · exact .inr (by_contra fun hs => h ⟨by omega, hs⟩)
  | case3 s h =>
    rw [stripDotSlash_of_not h]
    exact ⟨0, rfl, fun h0 => absurd h0 (Nat.lt_irrefl 0), fun t ht => absurd ht (h t)⟩

theorem stripSlashDot_repeated (hs : s ≠ []) (k : Nat) : stripSlashDot (repeated dotSlash k ++ s) = stripSlashDot s := by
  induction k with
  | zero => rfl
  | succ k ih =>
    rw [repeated_succ, List.append_assoc]
    show stripSlashDot ('.' :: '/' :: (repeated dotSlash k ++ s)) = _
    have hlen := List.length_pos_of_ne_nil hs
    rw [stripSlashDot, if_pos (by rw [List.length_append]; omega), ih]

theorem stripSlashDot_split (s : Str) : ∃ j, s = repeated dotSlash j ++ stripSlashDot s ∧
    (dotSlash <+: stripSlashDot s → stripSlashDot s = dotSlash) := by
  induction s using stripSlashDot.induct with
  | case1 s h ih =>
    obtain ⟨j, hs, hstop⟩ := ih
    rw [stripSlashDot, if_pos h]
    refine ⟨j + 1, ?_, hstop⟩
    rw [repeated_succ, List.append_assoc, ← hs]
    rfl
  | case2 s h =>
    rw [stripSlashDot, if_neg h]
    refine ⟨0, rfl, fun _ => ?_⟩
    rw [List.eq_nil_of_length_eq_zero (by omega : s.length = 0)]
    rfl
  | case3 s h =>
    have hnot : ¬ dotSlash <+: s := by
      rintro ⟨t, rfl⟩
      exact h t rfl
    rw [stripSlashDot_of_not hnot]
    exact ⟨0, rfl, fun hs => absurd hs hnot⟩

theorem stripSlash_replicate (hs : s ≠ []) (m : Nat) : stripSlash (List.replicate m '/' ++ s) = stripSlash s := by
  induction m with
  | zero => rfl
  | succ m ih =>
    rw [List.replicate_succ, List.cons_append]
    have hlen := List.length_pos_of_ne_nil hs
    rw [stripSlash, if_pos (by rw [List.length_append]; omega), ih]

theorem stripSlash_split (s : Str) : ∃ m, s = List.replicate m '/' ++ stripSlash s ∧
    ((stripSlash s).head? = some '/' → stripSlash s = ['/']) := by
  induction s using stripSlash.induct with
  | case1 s h ih =>
    obtain ⟨m, hs, hstop⟩ := ih
    rw [stripSlash, if_pos h]
    refine ⟨m + 1, ?_, hstop⟩
    rw [List.replicate_succ, List.cons_append, ← hs]
  | case2 s h =>
    rw [stripSlash, if_neg h]
    refine ⟨0, rfl, fun _ => ?_⟩
    rw [List.eq_nil_of_length_eq_zero (by omega : s.length = 0)]
  | case3 s h =>
    have hnot : s.head? ≠ some '/' := by
      intro hs
      obtain ⟨t, rfl⟩ := List.head?_eq_some_iff.mp hs
      exact h t rfl
    rw [stripSlash_of_not hnot]
    exact ⟨0, rfl, fun hs => absurd hs hnot⟩

/-! ## One pass -/

theorem pathSanitize_of_ne (hp : p ≠ []) : pathSanitize p = (stripSlash (stripSlashDot (stripDotSlash p).reverse)).reverse := by
  have h := ((trims_dotSlash p).trans (Trims.of_reverse trims_slashDot _)).trans (Trims.of_reverse trims_slash _)
  have hne := List.length_pos_of_ne_nil (h.ne_nil hp)
  rw [pathSanitize, if_neg hp]
  simp only
  rw [if_neg (by omega), List.reverse_reverse]

theorem Normal.stripDotSlash_eq (h : Normal s) : stripDotSlash s = s := by
  by_cases hs : ∃ t, s = dotSlash ++ t
  · obtain ⟨t, rfl⟩ := hs
    cases t with
    | nil => exact absurd (h.slash ⟨['.'], rfl⟩) (by decide)
    | cons c t =>
      obtain rfl := h.lead c t rfl
      show stripDotSlash ('.' :: '/' :: '/' :: t) = _
      rw [stripDotSlash, if_neg fun hc => hc.2 rfl]
      rfl
  · exact stripDotSlash_of_not fun t ht => hs ⟨t, ht⟩

/-- A path in normal form is left as it is. -/
theorem Normal.pathSanitize_eq (h : Normal s) : pathSanitize s = s := by
  by_cases hs : s = []
  · rw [pathSanitize, if_pos hs]
  have hdot : stripSlashDot s.reverse = s.reverse := by
    refine stripSlashDot_of_not fun hd => h.dot ?_
    rw [← List.reverse_prefix]
    exact hd
  rw [pathSanitize_of_ne hs, h.stripDotSlash_eq, hdot]
  by_cases hslash : ['/'] <:+ s
  · rw [h.slash hslash]
    rfl
  · rw [stripSlash_of_not, List.reverse_reverse]
    intro hhead
    obtain ⟨t, ht⟩ := List.head?_eq_some_iff.mp hhead
    refine hslash ?_
    rw [← List.reverse_prefix, ht]
    exact ⟨t, rfl⟩

theorem stripDotSlash_shown (s : Str) (hs : ∀ i, s ++ ['/'] ≠ repeated dotSlash (i + 1)) (t : Str) :
    ∃ s', stripDotSlash (s ++ slashDot ++ t) = s' ++ slashDot ++ t := by
  induction s using List.twoStepInduction with
  | nil => exact ⟨[], stripDotSlash_of_not fun u hu => absurd (List.cons.inj hu).1 (by decide)⟩
  | singleton x =>
    refine ⟨[x], stripDotSlash_of_not fun u hu => hs 0 ?_⟩
    rw [(List.cons.inj hu).1]
    rfl
  | cons_cons x y s ih _ =>
    by_cases hxy : x = '.' ∧ y = '/'
    · obtain ⟨rfl, rfl⟩ := hxy
      show ∃ s', stripDotSlash ('.' :: '/' :: (s ++ slashDot ++ t)) = _
      rw [stripDotSlash]
      split
      · refine ih fun i hi => hs (i + 1) ?_
        rw [repeated_succ, ← hi]
        rfl
      · exact ⟨'.' :: '/' :: s, rfl⟩
    · refine ⟨x :: y :: s, stripDotSlash_of_not fun u hu => hxy ?_⟩
      exact ⟨(List.cons.inj hu).1, (List.cons.inj (List.cons.inj hu).2).1⟩

theorem Stuck.not_normal (h : Stuck p) : ¬ Normal (pathSanitize p) := by
  cases h with
  | lead k c hslash hdot =>
    have h1 : stripDotSlash (repeated dotSlash (k + 1) ++ [c]) = ['.', '/', c] := by
      have hlen : 1 < (dotSlash ++ [c]).length := by simp [dotSlash]
      have hhead : (dotSlash ++ [c]).head? ≠ some '/' := head_ne_slash (by decide) _
      rw [repeated_concat, List.append_assoc, stripDotSlash_repeated hlen hhead]
      show stripDotSlash ['.', '/', c] = _
      rw [stripDotSlash, if_neg (by simp)]
    have h2 : stripSlashDot [c, '/', '.'] = [c, '/', '.'] := stripSlashDot_of_not fun hc => hdot (List.cons_prefix_cons.mp hc).1.symm
    have h3 : stripSlash [c, '/', '.'] = [c, '/', '.'] := stripSlash_of_not fun hc => hslash (Option.some.inj hc)
    rw [pathSanitize_of_ne (by simp), h1]
    show ¬ Normal (stripSlash (stripSlashDot [c, '/', '.'])).reverse
    rw [h2, h3]
    exact fun hn => hslash (hn.lead c [] rfl)
  | dots k =>
    have h1 : stripDotSlash (repeated slashDot (k + 1)) = repeated slashDot (k + 1) :=
      stripDotSlash_of_not fun u hu => absurd (List.cons.inj hu).1 (by decide)
    have h2 : stripSlashDot (repeated dotSlash (k + 1)) = dotSlash := by
      rw [repeated_concat, stripSlashDot_repeated (by decide)]
      rfl
    have hrev : (repeated slashDot (k + 1)).reverse = repeated dotSlash (k + 1) := reverse_repeated slashDot (k + 1)
    have hne : repeated slashDot (k + 1) ≠ [] := List.cons_ne_nil '/' _
    rw [pathSanitize_of_ne hne, h1, hrev, h2]
    exact fun hn => hn.dot ⟨[], rfl⟩
  | shown s m j hs =>
    rw [List.append_assoc]
    obtain ⟨s', h1⟩ := stripDotSlash_shown s hs (List.replicate (m + 1) '/' ++ repeated slashDot j)
    have hrev : (s' ++ slashDot ++ (List.replicate (m + 1) '/' ++ repeated slashDot j)).reverse =
        repeated dotSlash j ++ (List.replicate (m + 1) '/' ++ (dotSlash ++ s'.reverse)) := by
      rw [List.reverse_append, List.reverse_append, List.reverse_append, List.reverse_replicate, reverse_repeated, List.append_assoc]
      rfl
    have h2 : stripSlashDot (List.replicate (m + 1) '/' ++ (dotSlash ++ s'.reverse)) =
        List.replicate (m + 1) '/' ++ (dotSlash ++ s'.reverse) :=
      stripSlashDot_of_not fun hc => absurd (List.cons_prefix_cons.mp hc).1 (by decide)
    have h3 : stripSlash (dotSlash ++ s'.reverse) = dotSlash ++ s'.reverse := stripSlash_of_not (head_ne_slash (by decide) _)
    rw [pathSanitize_of_ne (by simp [slashDot]), h1, hrev, stripSlashDot_repeated (by simp), h2,
      stripSlash_replicate (by simp [dotSlash]), h3, List.reverse_append, List.reverse_reverse]
    exact fun hn => hn.dot ⟨s', rfl⟩

/-- Where one pass ends, read from the end of the path. -/
theorem pathSanitize_split (hp : p ≠ []) : ∃ i m j, p = repeated dotSlash i ++ (pathSanitize p ++ List.replicate m '/' ++ repeated slashDot j) ∧
    (0 < i → (pathSanitize p ++ List.replicate m '/' ++ repeated slashDot j).head? ≠ some '/') ∧
    (∀ t, pathSanitize p ++ List.replicate m '/' ++ repeated slashDot j = dotSlash ++ t → t.length ≤ 1 ∨ t.head? = some '/') ∧
    (m = 0 → slashDot <:+ pathSanitize p → pathSanitize p = slashDot) ∧
    (['/'] <:+ pathSanitize p → pathSanitize p = ['/']) := by
  rw [pathSanitize_of_ne hp]
  obtain ⟨i, hi, hhead, hstop⟩ := stripDotSlash_split p
  obtain ⟨j, hj, hdot⟩ := stripSlashDot_split (stripDotSlash p).reverse
  obtain ⟨m, hm, hslash⟩ := stripSlash_split (stripSlashDot (stripDotSlash p).reverse)
  have hq : stripDotSlash p = (stripSlash (stripSlashDot (stripDotSlash p).reverse)).reverse ++ List.replicate m '/' ++ repeated slashDot j := by
    conv_lhs => rw [← List.reverse_reverse (stripDotSlash p), hj, hm]
    rw [List.reverse_append, List.reverse_append, List.reverse_replicate, reverse_repeated]
    rfl
  rw [hq] at hi hhead hstop
  refine ⟨i, m, j, hi, hhead, hstop, fun h0 h => ?_, fun h => ?_⟩
  · have hd : dotSlash <+: stripSlashDot (stripDotSlash p).reverse := by
      rw [hm, h0]
      exact List.reverse_suffix.mp (by simpa [dotSlash, slashDot] using h)
    rw [hm, h0, List.replicate_zero, List.nil_append] at hdot
    rw [hdot (by rwa [hm, h0] at hd)]
    rfl
  · obtain ⟨t, ht⟩ := List.reverse_prefix.mpr h
    rw [List.reverse_reverse] at ht
    rw [hslash (by rw [← ht]; rfl)]
    rfl

/-- One pass reaches the normal form on every path that is not stuck. -/
theorem normal_pathSanitize (h : ¬ Stuck p) : Normal (pathSanitize p) := by
  by_cases hp : p = []
  · rw [pathSanitize, if_pos hp, hp]
    exact ⟨fun c t hc => absurd hc (by simp [dotSlash]), by decide, by decide⟩
  obtain ⟨i, m, j, hi, hhead, hstop, hdot, hslash⟩ := pathSanitize_split hp
  refine ⟨fun c t hc => by_contra fun hcs => ?_, fun hd => ?_, hslash⟩
  · -- the two characters are left only when `./c` is the whole of what was left
    rw [hc, List.append_assoc, List.append_assoc] at hstop hi
    have hlen : (c :: t ++ (List.replicate m '/' ++ repeated slashDot j)).length ≤ 1 := by
      rcases hstop _ rfl with h1 | h1
      · exact h1
      · exact absurd (Option.some.inj h1) hcs
    have hnil : t ++ (List.replicate m '/' ++ repeated slashDot j) = [] := List.eq_nil_of_length_eq_zero (by simpa using hlen)
    obtain ⟨rfl, hnil'⟩ := List.append_eq_nil_iff.mp hnil
    by_cases hcd : c = '.'
    · have hm : m = 0 := by simpa using (List.append_eq_nil_iff.mp hnil').1
      have hs := hdot hm ⟨['.'], by rw [hc, hcd]; rfl⟩
      rw [hc] at hs
      exact absurd (List.cons.inj hs).1 (by decide)
    · refine h ?_
      rw [hi, List.cons_append, hnil, ← List.append_assoc, ← repeated_concat]
      exact .lead i c hcs hcd
  · obtain ⟨w, hw⟩ := hd
    cases m with
    | zero =>
      rw [hdot rfl ⟨w, hw⟩] at hi hhead
      have hi0 : i = 0 := by_contra fun h0 => hhead (Nat.pos_of_ne_zero h0) rfl
      refine h ?_
      rw [hi, hi0]
      exact .dots j
    | succ m =>
      refine h ?_
      rw [hi, ← hw, ← List.append_assoc, ← List.append_assoc, ← List.append_assoc]
      refine .shown _ m j fun k hk => ?_
      rw [List.append_assoc] at hk
      obtain ⟨d, -, hwd⟩ := repeated_append_eq (by decide) hk
      obtain ⟨d, rfl⟩ := Nat.exists_eq_succ_of_ne_zero (n := d) fun h0 => by simp [h0] at hwd
      have hq : pathSanitize p ++ List.replicate (m + 1) '/' ++ repeated slashDot j =
          dotSlash ++ (repeated dotSlash d ++ '.' :: (List.replicate (m + 1) '/' ++ repeated slashDot j)) := by
        rw [← List.append_assoc, ← repeated_succ, ← hwd, ← hw]
        simp [slashDot]
      rcases hstop _ hq with hlen | hhead'
      · simp at hlen
        omega
      · cases d with
        | zero => exact absurd hhead' (head_ne_slash (by decide) _)
        | succ d => exact absurd hhead' (head_ne_slash (by decide) _)

/-- The paths that reach the normal form in one pass, which a second one then leaves alone, are those that are not stuck. -/
theorem pathSanitize_settles_iff (p : Str) (rest : List Char) {bufsiz : Nat} (hp : nul ∉ p) (hsize : p.length ≤ bufsiz) :
    ∃ b b', pathSanitizeBuf (p ++ nul :: rest) bufsiz = some b ∧ pathSanitizeBuf b bufsiz = some b' ∧
      (cstr b' = cstr b ∧ Normal (cstr b) ↔ ¬ Stuck p) := by
  have hpart := (trims_sanitize p).part
  have hnul : nul ∉ pathSanitize p := fun h => hp (hpart.subset h)
  have hnul' : nul ∉ pathSanitize (pathSanitize p) := fun h => hnul ((trims_sanitize _).part.subset h)
  obtain ⟨b, hb, hbuf⟩ := pathSanitizeBuf_eq ⟨rfl, rest, rfl⟩ hp hsize
  obtain ⟨b', hb', -, rest', hrest'⟩ := pathSanitizeBuf_eq hbuf hnul (Nat.le_trans hpart.length_le hsize)
  obtain ⟨-, rest₁, hrest₁⟩ := hbuf
  refine ⟨b, b', hb, hb', ?_⟩
  rw [hrest₁, hrest', cstr_append_nul _ _ hnul, cstr_append_nul _ _ hnul']
  constructor
  · intro h hs
    exact hs.not_normal h.2
  · intro h
    have hn := normal_pathSanitize h
    exact ⟨hn.pathSanitize_eq, hn⟩

theorem normal_dots : Normal (pathSanitize "././a//b/.".toList) := by
  rw [show pathSanitize "././a//b/.".toList = "a//b".toList by decide]
  refine ⟨?_, by decide, by decide⟩
  intro c t h
  exact absurd (List.cons.inj h).1 (by decide)

theorem not_stuck_dots : ∃ b b', pathSanitizeBuf ("././a//b/.".toList ++ nul :: []) 10 = some b ∧ pathSanitizeBuf b 10 = some b' ∧
    ¬ Stuck "././a//b/.".toList ∧ cstr b' = cstr b ∧ Normal (cstr b) := by
  obtain ⟨b, b', hb, hb', h⟩ := pathSanitize_settles_iff "././a//b/.".toList [] (by decide) (show _ ≤ 10 by decide)
  have hstuck : ¬ Stuck "././a//b/.".toList := fun hs => hs.not_normal normal_dots
  exact ⟨b, b', hb, hb', hstuck, h.mpr hstuck⟩

/-- `a/./` becomes `a/.`, and `a` at the second pass. -/
theorem pathSanitize_twice : ∃ b b', pathSanitizeBuf ("a/./".toList ++ [nul]) 4 = some b ∧ pathSanitizeBuf b 4 = some b' ∧
    cstr b = "a/.".toList ∧ cstr b' = "a".toList ∧ ¬ (cstr b' = cstr b ∧ Normal (cstr b)) := by
  refine ⟨['a', '/', '.', nul, nul], ['a', nul, '.', nul, nul], by decide, by decide, by decide, by decide, fun h => ?_⟩
  exact absurd h.1 (by decide)

end Iamroot
