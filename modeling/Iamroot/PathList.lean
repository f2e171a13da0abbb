import Iamroot.Path

/-!
# Lists of directories

`LD_LIBRARY_PATH`, `DT_RPATH` and their like are directories with colons between
them. `__path_strncat` grows such a list in a buffer, and `__path_access` cuts it
at each colon, so that an empty element stands for the working directory.
-/

namespace Iamroot

def pathStrncat (dst src : Str) (dstsiz : Nat) : Except Errno Str :=
  if dstsiz - dst.length - 1 < src.length + (if dst = [] then 0 else 1) then .error .ENOSPC
  else .ok (dst ++ (if dst ≠ [] ∧ src ≠ [] then [':'] else []) ++ src)

def dirs : Str → List Str
  | [] => [[]]
  | c :: s =>
    if c = ':' then [] :: dirs s
    else match dirs s with
      | [] => [[c]]
      | x :: xs => (c :: x) :: xs

/-- The directories that a list names: a list without a character is no list. -/
def listDirs (s : Str) : List Str := if s = [] then [] else dirs s

theorem dirs_ne_nil (s : Str) : dirs s ≠ [] := by
  cases s with
  | nil => nofun
  | cons c s =>
    unfold dirs
    split
    · nofun
    · split <;> nofun

@[simp] theorem dirs_colon (s : Str) : dirs (':' :: s) = [] :: dirs s := by simp [dirs]

theorem dirs_cons {c : Char} (hc : c ≠ ':') {s x : Str} {xs : List Str} (h : dirs s = x :: xs) :
    dirs (c :: s) = (c :: x) :: xs := by
  rw [dirs, if_neg hc, h]

theorem dirs_append (s t : Str) : dirs (s ++ ':' :: t) = dirs s ++ dirs t := by
  induction s with
  | nil => exact dirs_colon t
  | cons c s ih =>
    by_cases hc : c = ':'
    · subst hc
      rw [List.cons_append, dirs_colon, dirs_colon, ih, List.cons_append]
    · obtain ⟨x, xs, hx⟩ := List.exists_cons_of_ne_nil (dirs_ne_nil s)
      rw [hx, List.cons_append] at ih
      rw [List.cons_append, dirs_cons hc ih, dirs_cons hc hx, List.cons_append]

theorem length_le_of_mem_dirs {s d : Str} (h : d ∈ dirs s) : d.length ≤ s.length := by
  induction s generalizing d with
  | nil =>
    rw [dirs, List.mem_singleton] at h
    simp [h]
  | cons c s ih =>
    by_cases hc : c = ':'
    · subst hc
      rw [dirs_colon, List.mem_cons] at h
      rcases h with rfl | h
      · simp
      · have := ih h
        simp; omega
    · obtain ⟨x, xs, hx⟩ := List.exists_cons_of_ne_nil (dirs_ne_nil s)
      rw [dirs_cons hc hx, List.mem_cons] at h
      rcases h with rfl | h
      · have := ih (hx ▸ List.mem_cons_self)
        simp; omega
      · have := ih (hx ▸ List.mem_cons_of_mem _ h)
        simp; omega

/-- What was built so far, and one more list, as one list. -/
def joined (dst src : Str) : Str := dst ++ (if dst ≠ [] ∧ src ≠ [] then [':'] else []) ++ src

theorem pathStrncat_iff {dst src s : Str} {n : Nat} : pathStrncat dst src n = .ok s ↔
    src.length + (if dst = [] then 0 else 1) ≤ n - dst.length - 1 ∧ s = joined dst src := by
  unfold pathStrncat
  by_cases h : n - dst.length - 1 < src.length + (if dst = [] then 0 else 1)
  · rw [if_pos h]
    exact ⟨nofun, fun hs => absurd hs.1 (Nat.not_le.mpr h)⟩
  · rw [if_neg h, Except.ok.injEq]
    exact ⟨fun hs => ⟨Nat.not_lt.mp h, hs.symm⟩, fun hs => hs.2.symm⟩

/-- The directories of a list that was added to are those of the two. -/
theorem listDirs_joined (dst src : Str) : listDirs (joined dst src) = listDirs dst ++ listDirs src := by
  unfold joined
  by_cases hd : dst = []
  · simp [hd, listDirs]
  · by_cases hs : src = []
    · simp [hs, listDirs]
    · simp [listDirs, hd, hs, dirs_append]

end Iamroot
