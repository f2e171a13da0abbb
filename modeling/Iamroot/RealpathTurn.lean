import Iamroot.Advance

/-!
# What one turn of the symlink walk does

The array `stack` holds an unread text when that text stands at `p` and the NUL
that ends it is the last byte. Each turn is said here as what it does to the
unread text: a slash resets the output, a component goes to the output or asks
the host, the text of a link comes before the rest.
-/

namespace Iamroot

open FileTree

structure Scan.Holds (s : Scan) (u : Str) : Prop where
  size : s.stack.length = pathMax + 1
  unread : s.stack.drop s.p = u ++ [nul]
  noNul : nul ∉ u

def Rest (v : Str) : Prop := v = [] ∨ ∃ w, v = '/' :: w

def piece (out c : Str) : Str := if needsSlash out then '/' :: c else c

/-- The text of a link as the walk goes on with it: below the root directory when it is absolute. -/
def seen (env : Option Str) (t : Str) : Str :=
  (if isAbs t && inchroot env then (getrootdir env).take (strlen (getrootdir env)) else []) ++ t

theorem addName_eq (out c : Str) : addName out c = out ++ piece out c := rfl

namespace Scan.Holds

variable {s : Scan} {u v c : Str}

theorem p_add (h : s.Holds u) : s.p + u.length = pathMax := by
  have := congrArg List.length h.unread
  rw [List.length_drop, h.size, List.length_append, List.length_singleton] at this
  omega

theorem get (h : s.Holds u) (i : Nat) : s.stack[s.p + i]? = (u ++ [nul])[i]? := by
  rw [← h.unread, List.getElem?_drop]

theorem first (h : s.Holds u) : s.stack[s.p]? = (u ++ [nul])[0]? := h.get 0

theorem drop (h : s.Holds (c ++ v)) : ({ s with p := s.p + c.length } : Scan).Holds v where
  size := h.size
  unread := by
    rw [← List.drop_drop, h.unread, List.append_assoc, List.drop_left]
  noNul hm := h.noNul (List.mem_append_right c hm)

theorem take_slashes (v : Str) : v.takeWhile (· = '/') ++ v.dropWhile (· = '/') = v := List.takeWhile_append_dropWhile

theorem slashLen_eq (h : s.Holds v) : slashLen (s.stack.drop s.p) = (v.takeWhile (· = '/')).length := by
  rw [h.unread, slashLen]
  by_cases hv : ∀ x ∈ v, decide (x = '/') = true
  · rw [List.takeWhile_append_of_pos hv, List.takeWhile_eq_self_iff.mpr hv]
    have : [nul].takeWhile (fun x => decide (x = '/')) = [] := by decide
    rw [this, List.append_nil]
  · rw [List.takeWhile_append, if_neg]
    intro hl
    have : v.takeWhile (fun x => decide (x = '/')) = v :=
      List.IsPrefix.eq_of_length (List.takeWhile_prefix _) hl
    exact hv (List.takeWhile_eq_self_iff.mp this)

/-- The slashes that the loop skips. -/
theorem skip (h : s.Holds v) :
    ({ s with p := s.p + slashLen (s.stack.drop s.p) } : Scan).Holds (v.dropWhile (· = '/')) := by
  rw [h.slashLen_eq]
  rw [← take_slashes v] at h
  exact h.drop

theorem comp_eq (h : s.Holds (c ++ v)) (hc : '/' ∉ c) (hv : Rest v) :
    (s.stack.drop s.p).takeWhile (fun c => decide (c ≠ '/' ∧ c ≠ nul)) = c := by
  rw [h.unread, List.append_assoc, List.takeWhile_append_of_pos]
  · rcases hv with rfl | ⟨w, rfl⟩
    · exact List.append_nil c
    · exact List.append_nil c
  · intro x hx
    simp only [ne_eq, decide_eq_true_eq]
    refine ⟨?_, ?_⟩
    · rintro rfl
      exact hc hx
    · rintro rfl
      exact h.noNul (List.mem_append_left v hx)

theorem set_slash (h : s.Holds u) (hp : 0 < s.p) :
    ({ s with stack := s.stack.set (s.p - 1) '/' } : Scan).Holds u ∧
      (s.stack.set (s.p - 1) '/').drop (s.p - 1) = '/' :: (u ++ [nul]) := by
  have hpl := h.p_add
  have hlt : s.p - 1 < s.stack.length := by rw [h.size]; omega
  have hd : (s.stack.set (s.p - 1) '/').drop s.p = u ++ [nul] := by
    rw [List.drop_set_of_lt (by omega), h.unread]
  refine ⟨⟨by rw [List.length_set, h.size], hd, h.noNul⟩, ?_⟩
  rw [List.drop_eq_getElem_cons (by rw [List.length_set]; exact hlt), List.getElem_set_self]
  have : s.p - 1 + 1 = s.p := by omega
  rw [this, hd]

end Scan.Holds

section
variable {h : Host} {env : Option Str} {errnoSave : Option Errno} {atflags : Word} {s : Scan} {u v c : Str}

theorem turn_abs (hs : s.Holds ('/' :: v)) : turn h env errnoSave atflags s = .next { s with
    checkDir := false
    nup := 0
    output := if double ('/' :: v) then ['/', '/'] else ['/']
    p := s.p + 1 } := by
  have h0 : s.stack[s.p]? = some '/' := hs.first
  have h1 : s.stack[s.p + 1]? = (v ++ [nul])[0]? := hs.get 1
  have h2 : s.stack[s.p + 1 + 1]? = (v ++ [nul])[1]? := hs.get 2
  have hn : nul ≠ '/' := by decide
  have hd : (s.stack[s.p + 1]? = some '/' ∧ s.stack[s.p + 1 + 1]? ≠ some '/') ↔ double ('/' :: v) = true := by
    rw [h1, h2]
    cases v with
    | nil => simp [double, hn]
    | cons x w =>
      cases w with
      | nil => simp [double, hn]
      | cons y w => simp [double]
  rw [turn, if_pos h0]
  simp only [hd]

theorem turn_leave (hs : s.Holds []) (hd : s.checkDir = false) : turn h env errnoSave atflags s = .leave s := by
  have h0 : ¬ s.stack[s.p]? = some '/' := by
    rw [hs.first]
    decide
  have hc := hs.comp_eq (c := []) (v := []) nofun (Or.inl rfl)
  unfold turn
  rw [if_neg h0]
  simp only [hc, hd, List.length_nil, and_self, if_true]

theorem not_slash (hs : s.Holds (c ++ v)) (hc : '/' ∉ c) (h0 : c ≠ [] ∨ v = []) : ¬ s.stack[s.p]? = some '/' := by
  rw [hs.first]
  cases c with
  | nil =>
    rw [h0.resolve_left (fun e => e rfl)]
    decide
  | cons x c =>
    intro e
    have : x = '/' := by simpa using e
    exact hc (by simp [this])

theorem turn_dot (hs : s.Holds (dot ++ v)) (hv : Rest v) :
    turn h env errnoSave atflags s = .next { s with p := s.p + 1 } := by
  have h0 := not_slash hs (by decide) (Or.inl (by decide))
  have hc := hs.comp_eq (by decide) hv
  have hl : dot.length = 1 := rfl
  unfold turn
  rw [if_neg h0]
  simp only [hc, hl, Nat.one_ne_zero, false_and, if_false, if_true]

def compTurn (h : Host) (env : Option Str) (errnoSave : Option Errno) (atflags : Word) (s : Scan) (c : Str) : Turn Scan :=
  if c = dotdot ∧ s.output.length ≤ 3 * s.nup then
    .next { s with nup := s.nup + 1, output := addName s.output c }
  else if c = dotdot ∧ s.checkDir = false ∨ followSymlink atflags = false then
    skipReadlink s (piece s.output c) c.length (c = dotdot)
  else getxattrTurn h env errnoSave s (piece s.output c) c.length (c = dotdot)

variable (h env errnoSave atflags) in
theorem turn_comp (hs : s.Holds (c ++ v)) (hc : '/' ∉ c) (hv : Rest v) (h0 : c ≠ [] ∨ v = []) (hd : c ≠ dot)
    (hne : c = [] → s.checkDir = true) (hp : 0 < s.p) (hl : (addName s.output c).length < pathMax) :
    ∃ s₁ : Scan, s₁.Holds v ∧ s₁.p = s.p + c.length ∧ s₁.output = s.output ∧ s₁.cnt = s.cnt ∧ s₁.nup = s.nup ∧
      s₁.checkDir = s.checkDir ∧ turn h env errnoSave atflags s = compTurn h env errnoSave atflags s₁ c := by
  have hn := not_slash hs hc h0
  have hce := hs.comp_eq hc hv
  have hz : ¬ (c.length = 0 ∧ s.checkDir = false) := by
    rintro ⟨h1, h2⟩
    rw [hne (List.length_eq_zero_iff.mp h1)] at h2
    cases h2
  have hp0 : ¬ s.p = 0 := by omega
  rw [addName_eq, List.length_append, piece] at hl
  by_cases hns : needsSlash s.output = true
  · refine ⟨{ s with stack := s.stack.set (s.p - 1) '/', p := s.p + c.length }, (hs.set_slash hp).1.drop, rfl, rfl, rfl, rfl,
      rfl, ?_⟩
    rw [if_pos hns] at hl
    have hl' : ¬ pathMax ≤ s.output.length + (c.length + 1) := Nat.not_le.mpr hl
    have hpl : s.p - 1 + (c.length + 1) = s.p + c.length := by omega
    have hpc : ((s.stack.set (s.p - 1) '/').drop (s.p - 1)).take (c.length + 1) = piece s.output c := by
      rw [(hs.set_slash hp).2, piece, if_pos hns, List.take_succ_cons, List.append_assoc, List.take_left]
    unfold turn
    rw [if_neg hn]
    simp only [hce, hz, hd, hns, hp0, hl', hpl, hpc, and_false, if_false, if_true]
    rfl
  · refine ⟨{ s with p := s.p + c.length }, hs.drop, rfl, rfl, rfl, rfl, rfl, ?_⟩
    rw [if_neg hns] at hl
    have hl' : ¬ pathMax ≤ s.output.length + c.length := Nat.not_le.mpr hl
    have hpc : (s.stack.drop s.p).take c.length = piece s.output c := by
      rw [hs.unread, piece, if_neg hns, List.append_assoc, List.take_left]
    unfold turn
    rw [if_neg hn]
    simp only [hce, hz, hd, hns, hl', hpc, false_and, if_false, Bool.false_eq_true]
    rfl

/-- What is left on the stack when a link whose text is `t` is put before it. -/
def restAfter (t v : Str) : Str := if t.getLast? = some '/' then v.dropWhile (· = '/') else v

theorem drop_slashLen (u : Str) : u.drop (slashLen u) = u.dropWhile (· = '/') := by
  have h := List.takeWhile_append_dropWhile (p := fun c : Char => decide (c = '/')) (l := u)
  have hd : (u.takeWhile (· = '/') ++ u.dropWhile (· = '/')).drop (slashLen u) = u.dropWhile (· = '/') := List.drop_left
  rw [h] at hd
  exact hd

theorem dropWhile_slash_nul (v : Str) : (v ++ [nul]).dropWhile (· = '/') = v.dropWhile (· = '/') ++ [nul] := by
  rw [List.dropWhile_append]
  split
  · rename_i he
    rw [List.isEmpty_iff.mp he]
    rfl
  · rfl

/-- Where the root directory and the text fit below `p`, the text goes before what is left. -/
theorem followLink_restart (hsz : s.stack.length = pathMax + 1) (hp : s.p ≤ pathMax) {t : Str} (ht : t ≠ [])
    (hl : (seen env t).length ≤ s.p) : ∃ stack p, followLink env s t =
      .restart { s with stack := stack, p := p, cnt := s.cnt + 1 } ∧ stack.length = pathMax + 1 ∧
      stack.drop p = seen env t ++ restAfter (seen env t) (s.stack.drop s.p) := by
  obtain ⟨root, hroot⟩ : ∃ root, root =
    if isAbs t && inchroot env then (getrootdir env).take (strlen (getrootdir env)) else [] := ⟨_, rfl⟩
  have hseen : seen env t = root ++ t := by rw [hroot]; rfl
  have hsl : (seen env t).length = root.length + t.length := by rw [hseen, List.length_append]
  have htsz : (t ++ s.stack.drop t.length).length = pathMax + 1 := by
    rw [List.length_append, List.length_drop, hsz]; omega
  have hk : ¬ (t ++ s.stack.drop t.length).length ≤ root.length + t.length := by rw [htsz]; omega
  -- the stack once the root directory stands before the text
  obtain ⟨stack, hstack⟩ : ∃ stack, stack =
    root ++ (t ++ s.stack.drop t.length).take t.length ++ (t ++ s.stack.drop t.length).drop (root.length + t.length) :=
    ⟨_, rfl⟩
  have hst : stack = seen env t ++ s.stack.drop (root.length + t.length) := by
    have h1 : (t ++ s.stack.drop t.length).take t.length = t := List.take_left
    have h2 : (t ++ s.stack.drop t.length).drop (root.length + t.length) = s.stack.drop (root.length + t.length) := by
      rw [List.drop_append, List.drop_eq_nil_of_le (by omega), List.nil_append, List.drop_drop]
      congr 1; omega
    rw [hstack, h1, h2, hseen]
  have hd : stack.drop s.p = s.stack.drop s.p := by
    rw [hst, List.drop_append, List.drop_eq_nil_of_le (by omega), List.nil_append, List.drop_drop]
    congr 1; omega
  have hssz : stack.length = pathMax + 1 := by
    rw [hst, List.length_append, List.length_drop, hsz]; omega
  have hlast : stack[root.length + t.length - 1]? = (seen env t).getLast? := by
    have hpos := List.length_pos_of_ne_nil (List.append_ne_nil_of_right_ne_nil root ht)
    rw [← hseen] at hpos
    rw [hst, ← hsl, List.getElem?_append_left (by omega), List.getLast?_eq_getElem?]
  have htake : stack.take (root.length + t.length) = seen env t := by rw [hst, ← hsl, List.take_left]
  -- where the rest begins, and what it is
  obtain ⟨p, hp'⟩ : ∃ p, p = if stack[root.length + t.length - 1]? = some '/'
    then s.p + slashLen (stack.drop s.p) else s.p := ⟨_, rfl⟩
  have hrest : stack.drop p = restAfter (seen env t) (s.stack.drop s.p) ∧ s.p ≤ p ∧ p ≤ stack.length := by
    rw [hp', hlast, restAfter]
    split
    · have hle : slashLen (stack.drop s.p) ≤ (stack.drop s.p).length := (List.takeWhile_prefix _).length_le
      rw [List.length_drop] at hle
      refine ⟨?_, Nat.le_add_right _ _, by omega⟩
      rw [← List.drop_drop, drop_slashLen, hd]
    · exact ⟨hd, Nat.le_refl _, by omega⟩
  have hkp : root.length + t.length ≤ p := by omega
  refine ⟨stack.take (p - (root.length + t.length)) ++ stack.take (root.length + t.length) ++ stack.drop p,
    p - (root.length + t.length), ?_, ?_, ?_⟩
  · unfold followLink
    simp only [← hroot]
    rw [if_neg hk]
    simp only [← hstack, ← hp']
    rw [if_neg (Nat.not_lt.mpr hkp)]
  · simp only [List.length_append, List.length_take, List.length_drop]
    omega
  · have hlen : (stack.take (p - (root.length + t.length))).length = p - (root.length + t.length) := by
      rw [List.length_take]; omega
    rw [htake, hrest.1, List.append_assoc, List.drop_left' hlen]

theorem followLink_eq (hs : s.Holds v) {t : Str} (ht : t ≠ []) (hn : nul ∉ seen env t)
    (hl : (seen env t).length + v.length ≤ pathMax) : ∃ stack p, followLink env s t =
      .restart { s with stack := stack, p := p, cnt := s.cnt + 1 } ∧
      ({ s with stack := stack, p := p, cnt := s.cnt + 1 } : Scan).Holds (seen env t ++ restAfter (seen env t) v) := by
  have hpl := hs.p_add
  have hfit : (seen env t).length ≤ s.p := by omega
  obtain ⟨stack, p, hf, hsz, hd⟩ := followLink_restart hs.size (by omega) ht hfit
  refine ⟨stack, p, hf, hsz, ?_, ?_⟩
  · rw [hd, hs.unread, List.append_assoc]
    congr 1
    unfold restAfter
    split
    · exact dropWhile_slash_nul v
    · rfl
  · rw [List.mem_append, not_or]
    refine ⟨hn, fun hm => hs.noNul ?_⟩
    unfold restAfter at hm
    split at hm
    · exact (List.dropWhile_sublist _).subset hm
    · exact hm

end

end Iamroot
