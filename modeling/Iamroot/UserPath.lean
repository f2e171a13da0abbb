import Iamroot.LibPath

/-!
# The user's part of `LD_LIBRARY_PATH`

`__getld_library_path` takes the list of the library, `ld_library_path`, off the
value of `LD_LIBRARY_PATH`. It compares the two as texts: the list in front goes
even where it ends in the middle of a name.
-/

namespace Iamroot

/-- What is behind the list `prev` and a colon; the whole value where `prev` is not in front, or does not end there. -/
def userPath (curr prev : Str) : Str :=
  if curr = prev then []
  else if prev ++ [':'] <+: curr then curr.drop (prev.length + 1)
  else curr

/-- The text `x` behind the list is no part of its last name. No more than `PATH_MAX` characters are taken off: behind a
longer list, what is left has to read like the text behind the colon. -/
def Told (prev x : Str) (bufsiz : Nat) : Prop :=
  if prev.length ≤ pathMax then prev = [] ∨ x.head? = some ':'
  else ∃ ext, x = ':' :: ext ∧ ext.length = bufsiz - 1 ∧
    ext <+: prev.drop (pathMax + if prev[pathMax]? = some ':' then 1 else 0) ++ x

variable {curr prev ext x : Str} {bufsiz : Nat}

theorem userPath_self : userPath prev prev = [] := if_pos rfl

theorem userPath_colon : userPath (prev ++ ':' :: ext) prev = ext := by
  have hpre : prev ++ [':'] <+: prev ++ ':' :: ext := ⟨ext, by simp⟩
  rw [userPath, if_neg (by simp), if_pos hpre, ← List.drop_drop, List.drop_left]
  rfl

theorem userPath_inside (hx : x ≠ []) (hc : x.head? ≠ some ':') : userPath (prev ++ x) prev = prev ++ x := by
  rw [userPath, if_neg (by simpa using hx), if_neg]
  rintro ⟨t, ht⟩
  rw [List.append_assoc] at ht
  rw [← List.append_cancel_left ht] at hc
  exact hc rfl

theorem userPath_away (h : ¬ prev <+: curr) : userPath curr prev = curr := by
  have hne : curr ≠ prev := fun e => h (e ▸ List.prefix_rfl)
  rw [userPath, if_neg hne, if_neg fun hp => h ((List.prefix_append prev [':']).trans hp)]

theorem strncpy_eq_self_iff : strncpy x bufsiz = x ↔ x.length ≤ bufsiz - 1 := List.take_eq_self_iff x

theorem getldLibraryPath_self : getldLibraryPath (some prev) (some prev) bufsiz = [] := by
  rw [getldLibraryPath, if_pos ((streq_iff prev prev).mpr rfl)]

theorem getldLibraryPath_away (h : ¬ prev <+: curr) : getldLibraryPath (some curr) (some prev) bufsiz = strncpy curr bufsiz := by
  rw [getldLibraryPath, if_neg fun e => h ((streq_iff curr prev).mp e ▸ List.prefix_rfl), if_neg h]

theorem getldLibraryPath_append (hx : x ≠ []) : getldLibraryPath (some (prev ++ x)) (some prev) bufsiz =
    strncpy ((prev ++ x).drop (strlen prev + if (prev ++ x)[strlen prev]? = some ':' then 1 else 0)) bufsiz := by
  rw [getldLibraryPath, if_neg (by simpa using hx), if_pos (List.prefix_append prev x)]

theorem getldLibraryPath_short (hx : x ≠ []) (hlen : prev.length ≤ pathMax) :
    getldLibraryPath (some (prev ++ x)) (some prev) bufsiz = strncpy (if x.head? = some ':' then x.drop 1 else x) bufsiz := by
  have hstr : strlen prev = prev.length := Nat.min_eq_left hlen
  have hget : (prev ++ x)[prev.length]? = x.head? := by
    rw [List.getElem?_append_right (Nat.le_refl _), Nat.sub_self, List.head?_eq_getElem?]
  rw [getldLibraryPath_append hx, hstr, hget, ← List.drop_drop, List.drop_left]
  split <;> rfl

theorem getldLibraryPath_long (hx : x ≠ []) (hlen : pathMax < prev.length) :
    getldLibraryPath (some (prev ++ x)) (some prev) bufsiz =
      strncpy (prev.drop (pathMax + if prev[pathMax]? = some ':' then 1 else 0) ++ x) bufsiz := by
  have hstr : strlen prev = pathMax := Nat.min_eq_right (Nat.le_of_lt hlen)
  have hle : pathMax + (if prev[pathMax]? = some ':' then 1 else 0) ≤ prev.length := by split <;> omega
  rw [getldLibraryPath_append hx, hstr, List.getElem?_append_left hlen, List.drop_append_of_le_length hle]

theorem told_iff (hx : x ≠ []) : getldLibraryPath (some (prev ++ x)) (some prev) bufsiz = userPath (prev ++ x) prev ↔
    (userPath (prev ++ x) prev).length ≤ bufsiz - 1 ∧ Told prev x bufsiz := by
  unfold Told
  by_cases hlen : prev.length ≤ pathMax
  · rw [getldLibraryPath_short hx hlen, if_pos hlen]
    by_cases hc : x.head? = some ':'
    · obtain ⟨ext, rfl⟩ := List.head?_eq_some_iff.mp hc
      rw [if_pos hc, userPath_colon]
      show strncpy ext bufsiz = ext ↔ _
      rw [strncpy_eq_self_iff]
      exact ⟨fun h => ⟨h, .inr hc⟩, And.left⟩
    · rw [if_neg hc, userPath_inside hx hc]
      constructor
      · intro h
        -- what is in front of the name is missing
        have hprev : prev = [] := by
          have hle := (List.take_prefix (bufsiz - 1) x).length_le
          rw [show x.take (bufsiz - 1) = prev ++ x from h, List.length_append] at hle
          exact List.eq_nil_of_length_eq_zero (by omega)
        rw [hprev] at h ⊢
        exact ⟨strncpy_eq_self_iff.mp h, .inl rfl⟩
      · rintro ⟨hfit, hprev | hc'⟩
        · rw [hprev] at hfit ⊢
          exact strncpy_eq_self_iff.mpr hfit
        · exact absurd hc' hc
  · have hlong := Nat.lt_of_not_le hlen
    rw [getldLibraryPath_long hx hlong, if_neg hlen]
    generalize hk : pathMax + (if prev[pathMax]? = some ':' then 1 else 0) = k
    by_cases hc : x.head? = some ':'
    · obtain ⟨ext, rfl⟩ := List.head?_eq_some_iff.mp hc
      rw [userPath_colon]
      constructor
      · intro h
        have htake : (prev.drop k ++ ':' :: ext).take (bufsiz - 1) = ext := h
        have hlength := congrArg List.length htake
        simp only [List.length_take, List.length_append, List.length_cons] at hlength
        have hpre := List.take_prefix (bufsiz - 1) (prev.drop k ++ ':' :: ext)
        rw [htake] at hpre
        exact ⟨by omega, ext, rfl, by omega, hpre⟩
      · rintro ⟨-, ext', he, hsize, hpre⟩
        obtain rfl : ext = ext' := (List.cons.inj he).2
        show (prev.drop k ++ ':' :: ext).take (bufsiz - 1) = ext
        rw [← hsize]
        exact (List.prefix_iff_eq_take.mp hpre).symm
    · rw [userPath_inside hx hc]
      constructor
      · intro h
        have hle := (List.take_prefix (bufsiz - 1) (prev.drop k ++ x)).length_le
        rw [show (prev.drop k ++ x).take (bufsiz - 1) = prev ++ x from h] at hle
        have hpos : 0 < pathMax := by decide
        simp only [List.length_append, List.length_drop] at hle
        omega
      · rintro ⟨-, ext, rfl, -⟩
        exact absurd rfl hc

/-- The user's directories are recovered when they fit in the buffer, and when the text behind a list in front is told from it. -/
theorem getldLibraryPath_iff (curr prev : Str) (bufsiz : Nat) : getldLibraryPath (some curr) (some prev) bufsiz = userPath curr prev ↔
    (userPath curr prev).length ≤ bufsiz - 1 ∧ ∀ x, x ≠ [] → curr = prev ++ x → Told prev x bufsiz := by
  by_cases hpre : prev <+: curr
  · obtain ⟨x, rfl⟩ := hpre
    by_cases hx : x = []
    · subst hx
      rw [List.append_nil, getldLibraryPath_self, userPath_self]
      refine ⟨fun _ => ⟨Nat.zero_le _, fun x hx he => absurd ?_ hx⟩, fun _ => rfl⟩
      simpa using he
    · rw [told_iff hx]
      refine and_congr_right fun _ => ⟨fun h y _ he => ?_, fun h => h x hx rfl⟩
      rwa [← List.append_cancel_left he]
  · rw [getldLibraryPath_away hpre, userPath_away hpre, strncpy_eq_self_iff]
    exact ⟨fun h => ⟨h, fun x _ he => absurd ⟨x, he.symm⟩ hpre⟩, And.left⟩

/-- `/lib64` behind the list `/lib`. -/
theorem getldLibraryPath_cut : getldLibraryPath (some "/lib64".toList) (some "/lib".toList) pathMax = "64".toList ∧
    getldLibraryPath (some "/lib64".toList) (some "/lib".toList) pathMax ≠ userPath "/lib64".toList "/lib".toList := by
  decide

end Iamroot
