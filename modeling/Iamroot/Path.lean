import Iamroot.Basic

/-!
# Paths and locations

A location is a list of names, innermost first, and `pathOf` writes it as the
canonical absolute path the kernel reports for it. `comps` cuts a path at its
slashes and keeps the empty components, so that the length of a path can be
read off its components.
-/

namespace Iamroot

abbrev Loc := List Str

def dot : Str := ['.']

def dotdot : Str := ['.', '.']

def ValidName (c : Str) : Prop := c ≠ [] ∧ '/' ∉ c ∧ nul ∉ c ∧ c ≠ dot ∧ c ≠ dotdot

instance (c : Str) : Decidable (ValidName c) := by unfold ValidName; infer_instance

def ValidLoc (ℓ : Loc) : Prop := ∀ c ∈ ℓ, ValidName c

instance (ℓ : Loc) : Decidable (ValidLoc ℓ) := by unfold ValidLoc; infer_instance

/-- The path of a location, without the lone slash of the root. -/
def render : Loc → Str
  | [] => []
  | c :: ℓ => render ℓ ++ '/' :: c

def pathOf (ℓ : Loc) : Str := if ℓ = [] then ['/'] else render ℓ

/-- `ℓ` is `R` itself or lies below it, component by component. -/
def Beneath (R ℓ : Loc) : Prop := R <:+ ℓ

instance (R ℓ : Loc) : Decidable (Beneath R ℓ) := inferInstanceAs (Decidable (R <:+ ℓ))

def comps : Str → List Str
  | [] => [[]]
  | c :: s =>
    if c = '/' then [] :: comps s
    else match comps s with
      | [] => [[c]]
      | x :: xs => (c :: x) :: xs

/-- The root directory of a chroot: `IAMROOT_ROOT` set to a canonical path other than `/`. -/
structure RootDir where
  loc : Loc
  valid : ValidLoc loc
  ne_nil : loc ≠ []
  short : (render loc).length < pathMax

def RootDir.path (R : RootDir) : Str := render R.loc

/-! ## Components -/

theorem comps_ne_nil (s : Str) : comps s ≠ [] := by
  cases s with
  | nil => nofun
  | cons c s =>
    unfold comps
    split
    · nofun
    · split <;> nofun

@[simp] theorem comps_slash (s : Str) : comps ('/' :: s) = [] :: comps s := by simp [comps]

theorem comps_cons {c : Char} (hc : c ≠ '/') {s x : Str} {xs : List Str} (h : comps s = x :: xs) :
    comps (c :: s) = (c :: x) :: xs := by
  rw [comps, if_neg hc, h]

theorem comps_append (s t : Str) : comps (s ++ '/' :: t) = comps s ++ comps t := by
  induction s with
  | nil => exact comps_slash t
  | cons c s ih =>
    by_cases hc : c = '/'
    · subst hc
      rw [List.cons_append, comps_slash, comps_slash, ih, List.cons_append]
    · obtain ⟨x, xs, hx⟩ := List.exists_cons_of_ne_nil (comps_ne_nil s)
      rw [hx, List.cons_append] at ih
      rw [List.cons_append, comps_cons hc ih, comps_cons hc hx, List.cons_append]

theorem comps_of_no_slash {s : Str} (h : '/' ∉ s) : comps s = [s] := by
  induction s with
  | nil => rfl
  | cons c s ih =>
    rw [List.mem_cons, not_or] at h
    exact comps_cons (fun e => h.1 e.symm) (ih h.2)

theorem no_slash_of_mem_comps {s c : Str} (h : c ∈ comps s) : '/' ∉ c := by
  induction s generalizing c with
  | nil =>
    rw [comps, List.mem_singleton] at h
    rw [h]; nofun
  | cons a s ih =>
    obtain ⟨x, xs, hx⟩ := List.exists_cons_of_ne_nil (comps_ne_nil s)
    by_cases ha : a = '/'
    · subst ha
      rw [comps_slash, List.mem_cons] at h
      rcases h with rfl | h
      · nofun
      · exact ih h
    · rw [comps_cons ha hx, List.mem_cons] at h
      rcases h with rfl | h
      · intro hm
        rcases List.mem_cons.mp hm with e | hm
        · exact ha e.symm
        · exact ih (hx ▸ List.mem_cons_self) hm
      · exact ih (hx ▸ List.mem_cons_of_mem _ h)

theorem mem_of_mem_comps {s c : Str} (h : c ∈ comps s) {x : Char} (hx : x ∈ c) : x ∈ s := by
  induction s generalizing c with
  | nil =>
    rw [comps, List.mem_singleton] at h
    rw [h] at hx; cases hx
  | cons a s ih =>
    obtain ⟨y, ys, hy⟩ := List.exists_cons_of_ne_nil (comps_ne_nil s)
    by_cases ha : a = '/'
    · subst ha
      rw [comps_slash, List.mem_cons] at h
      rcases h with rfl | h
      · cases hx
      · exact List.mem_cons_of_mem _ (ih h hx)
    · rw [comps_cons ha hy, List.mem_cons] at h
      rcases h with rfl | h
      · rcases List.mem_cons.mp hx with rfl | hx
        · exact List.mem_cons_self
        · exact List.mem_cons_of_mem _ (ih (hy ▸ List.mem_cons_self) hx)
      · exact List.mem_cons_of_mem _ (ih (hy ▸ List.mem_cons_of_mem _ h) hx)

def join : List Str → Str
  | [] => []
  | [c] => c
  | c :: d :: l => c ++ '/' :: join (d :: l)

theorem join_cons (c : Str) {l : List Str} (h : l ≠ []) : join (c :: l) = c ++ '/' :: join l := by
  cases l with
  | nil => exact absurd rfl h
  | cons d l => rfl

theorem join_comps (s : Str) : join (comps s) = s := by
  induction s with
  | nil => rfl
  | cons c s ih =>
    by_cases hc : c = '/'
    · subst hc
      rw [comps_slash, join_cons _ (comps_ne_nil s), ih, List.nil_append]
    · obtain ⟨x, xs, hx⟩ := List.exists_cons_of_ne_nil (comps_ne_nil s)
      rw [comps_cons hc hx]
      rw [hx] at ih
      cases xs with
      | nil => rw [join] at ih ⊢; rw [ih]
      | cons y ys => rw [join] at ih ⊢; rw [List.cons_append, ih]

/-! ## Rendering -/

@[simp] theorem render_nil : render [] = [] := rfl

@[simp] theorem render_cons (c : Str) (ℓ : Loc) : render (c :: ℓ) = render ℓ ++ '/' :: c := rfl

theorem render_append : ∀ ℓ ℓ' : Loc, render (ℓ ++ ℓ') = render ℓ' ++ render ℓ
  | [], ℓ' => by simp
  | c :: ℓ, ℓ' => by simp [render_append ℓ ℓ']

theorem render_head {ℓ : Loc} (h : ℓ ≠ []) : ∃ t, render ℓ = '/' :: t := by
  induction ℓ with
  | nil => exact absurd rfl h
  | cons c ℓ ih =>
    by_cases hℓ : ℓ = []
    · subst hℓ; exact ⟨c, rfl⟩
    · obtain ⟨t, ht⟩ := ih hℓ
      exact ⟨t ++ '/' :: c, by simp [ht]⟩

theorem nul_not_mem_render : ∀ {ℓ : Loc}, ValidLoc ℓ → nul ∉ render ℓ
  | [], _ => by simp
  | c :: ℓ, h => by
    have hc := (h c (by simp)).2.2.1
    have ih := nul_not_mem_render (ℓ := ℓ) fun d hd => h d (by simp [hd])
    have hs : nul ≠ '/' := by decide
    simp [ih, hc, hs]

theorem render_length_pos {ℓ : Loc} (h : ℓ ≠ []) : 0 < (render ℓ).length := by
  obtain ⟨t, ht⟩ := render_head h
  simp [ht]

theorem render_length_ge {ℓ : Loc} (hv : ValidLoc ℓ) (h : ℓ ≠ []) : 2 ≤ (render ℓ).length := by
  cases ℓ with
  | nil => exact absurd rfl h
  | cons c ℓ =>
    have hc : c ≠ [] := (hv c (by simp)).1
    have := List.length_pos_of_ne_nil hc
    simp; omega

namespace RootDir

variable (R : RootDir)

theorem path_ne_slash : R.path ≠ ['/'] := fun h => by
  have h2 : 2 ≤ R.path.length := render_length_ge R.valid R.ne_nil
  rw [h] at h2; simp at h2

theorem path_pos : 0 < R.path.length := render_length_pos R.ne_nil

theorem path_head : ∃ t, R.path = '/' :: t := render_head R.ne_nil

theorem path_short : R.path.length < pathMax := R.short

theorem path_length_ge : 2 ≤ R.path.length := render_length_ge R.valid R.ne_nil

theorem strlen_path : strlen R.path = R.path.length := strlen_of_lt R.path_short

end RootDir

end Iamroot
