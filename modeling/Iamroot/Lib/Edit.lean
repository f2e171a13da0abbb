import Mathlib.Data.List.Infix
import Mathlib.Logic.Function.Basic

/-!
# Trees that are edited

A tree is a map of locations, lists of names with the innermost first, to what
is there. It is rooted when the root is a directory and everything else lies in
a directory. Entries are assigned, erased and moved with all that lies below them;
each of these keeps a tree rooted, and leaves everything outside a directory
alone when it works on locations below that directory.
-/

namespace FileTree

section
variable {ν α : Type*} {dir : α} {m : List ν → Option α}

/-- The root is a directory, and so is what holds an entry. -/
structure Rooted (dir : α) (m : List ν → Option α) : Prop where
  root : m [] = some dir
  parent : ∀ {n ℓ}, m (n :: ℓ) ≠ none → m ℓ = some dir

def Childless (m : List ν → Option α) (ℓ : List ν) : Prop := ∀ n, m (n :: ℓ) = none

/-- The maps agree on what does not lie below `T`, and on `T` itself. -/
def AgreeOutside (T : List ν) (m m' : List ν → Option α) : Prop := ∀ ℓ, (∀ n, ¬ n :: T <:+ ℓ) → m' ℓ = m ℓ

theorem AgreeOutside.refl (T : List ν) (m : List ν → Option α) : AgreeOutside T m m := fun _ _ => rfl

theorem AgreeOutside.trans {T : List ν} {m m' m'' : List ν → Option α} (h : AgreeOutside T m m')
    (h' : AgreeOutside T m' m'') : AgreeOutside T m m'' := fun ℓ hℓ => (h' ℓ hℓ).trans (h ℓ hℓ)

theorem AgreeOutside.top {T : List ν} {m m' : List ν → Option α} (h : AgreeOutside T m m') : m' T = m T := by
  refine h T fun n hn => ?_
  have hlen := hn.length_le
  rw [List.length_cons] at hlen
  omega

theorem Rooted.ne_nil_of_none (h : Rooted dir m) {ℓ : List ν} (hℓ : m ℓ = none) : ℓ ≠ [] := by
  intro he
  rw [he, h.root] at hℓ
  cases hℓ

theorem not_suffix_tail (n : ν) (ℓ : List ν) : ¬ n :: ℓ <:+ ℓ := by
  intro h
  have hlen := h.length_le
  rw [List.length_cons] at hlen
  omega

section
variable [DecidableEq ν]

/-! ## One entry -/

def assign (m : List ν → Option α) (ℓ : List ν) (a : α) : List ν → Option α := Function.update m ℓ (some a)

def erase (m : List ν → Option α) (ℓ : List ν) : List ν → Option α := Function.update m ℓ none

variable {ℓ ℓ' : List ν} {a : α}

@[simp] theorem assign_self (m : List ν → Option α) (ℓ : List ν) (a : α) : assign m ℓ a ℓ = some a := Function.update_self _ _ _

theorem assign_ne (m : List ν → Option α) (a : α) (h : ℓ' ≠ ℓ) : assign m ℓ a ℓ' = m ℓ' := Function.update_of_ne h _ _

@[simp] theorem erase_self (m : List ν → Option α) (ℓ : List ν) : erase m ℓ ℓ = none := Function.update_self _ _ _

theorem erase_ne (m : List ν → Option α) (h : ℓ' ≠ ℓ) : erase m ℓ ℓ' = m ℓ' := Function.update_of_ne h _ _

theorem Rooted.assign (h : Rooted dir m) (hℓ : m ℓ = none) (hp : m ℓ.tail = some dir) : Rooted dir (assign m ℓ a) where
  root := by rw [assign_ne m a (Ne.symm (h.ne_nil_of_none hℓ)), h.root]
  parent {n k} hne := by
    by_cases hk : n :: k = ℓ
    · have htail : k = ℓ.tail := by rw [← hk]; rfl
      rw [assign_ne m a (by rw [← hk]; exact (List.cons_ne_self n k).symm), htail, hp]
    · rw [assign_ne m a hk] at hne
      have hd := h.parent hne
      have hkℓ : k ≠ ℓ := by
        intro he
        rw [he, hℓ] at hd
        cases hd
      rw [assign_ne m a hkℓ, hd]

theorem Rooted.erase (h : Rooted dir m) (hℓ : ℓ ≠ []) (hc : Childless m ℓ) : Rooted dir (erase m ℓ) where
  root := by rw [erase_ne m (Ne.symm hℓ), h.root]
  parent {n k} hne := by
    have hnk : n :: k ≠ ℓ := by
      intro he
      rw [he, erase_self] at hne
      exact hne rfl
    rw [erase_ne m hnk] at hne
    have hk : k ≠ ℓ := by
      intro he
      rw [he, hc n] at hne
      exact hne rfl
    rw [erase_ne m hk, h.parent hne]

theorem agreeOutside_update {T : List ν} {n : ν} (h : n :: T <:+ ℓ) (x : Option α) :
    AgreeOutside T m (Function.update m ℓ x) := by
  intro k hk
  refine Function.update_of_ne ?_ _ _
  intro he
  exact hk n (he ▸ h)

/-! ## Entries that are moved -/

/-- Where what is found at `ℓ` afterwards was before, when `src` has been moved to `dst`, or the two have
been exchanged. -/
def origin (exchange : Bool) (src dst ℓ : List ν) : Option (List ν) :=
  if dst <:+ ℓ then some (ℓ.take (ℓ.length - dst.length) ++ src)
  else if src <:+ ℓ then (if exchange then some (ℓ.take (ℓ.length - src.length) ++ dst) else none)
  else some ℓ

def moved (exchange : Bool) (src dst : List ν) (m : List ν → Option α) (ℓ : List ν) : Option α :=
  (origin exchange src dst ℓ).bind m

variable {src dst : List ν} {x : Bool}

theorem origin_dst (x : Bool) (src dst pre : List ν) : origin x src dst (pre ++ dst) = some (pre ++ src) := by
  rw [origin, if_pos (List.suffix_append pre dst), List.length_append, Nat.add_sub_cancel, List.take_left]

theorem origin_src (hd : ∀ pre, ¬ dst <:+ pre ++ src) (pre : List ν) :
    origin x src dst (pre ++ src) = if x then some (pre ++ dst) else none := by
  rw [origin, if_neg (hd pre), if_pos (List.suffix_append pre src), List.length_append, Nat.add_sub_cancel, List.take_left]

theorem origin_other (hd : ¬ dst <:+ ℓ) (hs : ¬ src <:+ ℓ) : origin x src dst ℓ = some ℓ := by
  rw [origin, if_neg hd, if_neg hs]

omit [DecidableEq ν] in
theorem not_suffix_append (h : ¬ src <:+ dst) (h' : ¬ dst <:+ src) (pre : List ν) : ¬ dst <:+ pre ++ src := by
  intro hs
  rcases List.suffix_or_suffix_of_suffix hs (List.suffix_append pre src) with h1 | h1
  · exact h' h1
  · exact h h1

theorem moved_tail {n : ν} {k : List ν} (hk : n :: k = dst ∨ n :: k = src) (h : ¬ src <:+ dst) (h' : ¬ dst <:+ src) :
    origin x src dst k = some k := by
  have hlt : ∀ {u v : List ν}, n :: k = u → ¬ v <:+ u → ¬ v <:+ k := by
    intro u v hu hv hs
    exact hv (hu ▸ hs.trans (List.suffix_cons n k))
  have hself : ∀ {u : List ν}, n :: k = u → ¬ u <:+ k := by
    intro u hu hs
    rw [← hu] at hs
    exact not_suffix_tail n k hs
  rcases hk with hk | hk
  · exact origin_other (hself hk) (hlt hk h)
  · exact origin_other (hlt hk h') (hself hk)

/-- Entries are moved to a place in a directory; neither place lies below the other one. -/
theorem Rooted.moved (hm : Rooted dir m) (h : ¬ src <:+ dst) (h' : ¬ dst <:+ src) (hs : m src ≠ none)
    (hd : m dst.tail = some dir) : Rooted dir (moved x src dst m) where
  root := by
    have h0 : ∀ {u v : List ν}, ¬ u <:+ v → ¬ u <:+ [] := fun hu hn => hu (List.suffix_nil.mp hn ▸ List.nil_suffix)
    rw [FileTree.moved, origin_other (h0 h') (h0 h)]
    exact hm.root
  parent {n k} hne := by
    unfold FileTree.moved at hne ⊢
    by_cases hdk : dst <:+ n :: k
    · rcases List.suffix_cons_iff.mp hdk with he | hdk'
      · -- the directory of the new place is not moved itself
        rw [moved_tail (.inl he.symm) h h', Option.bind_some]
        rw [he] at hd
        exact hd
      · obtain ⟨pre, rfl⟩ := hdk'
        have hc : n :: (pre ++ dst) = (n :: pre) ++ dst := rfl
        rw [hc, origin_dst, Option.bind_some] at hne
        rw [origin_dst, Option.bind_some]
        exact hm.parent hne
    · by_cases hsk : src <:+ n :: k
      · rcases List.suffix_cons_iff.mp hsk with he | hsk'
        · rw [moved_tail (.inr he.symm) h h', Option.bind_some]
          rw [he] at hs
          exact hm.parent hs
        · obtain ⟨pre, rfl⟩ := hsk'
          have hc : n :: (pre ++ src) = (n :: pre) ++ src := rfl
          rw [hc, origin_src (not_suffix_append h h')] at hne
          rw [origin_src (not_suffix_append h h')]
          cases x with
          | false => exact absurd rfl hne
          | true =>
            rw [if_pos rfl, Option.bind_some] at hne ⊢
            exact hm.parent hne
      · rw [origin_other hdk hsk, Option.bind_some] at hne
        have hk : ∀ {u : List ν}, ¬ u <:+ n :: k → ¬ u <:+ k := fun hu hn => hu (hn.trans (List.suffix_cons n k))
        rw [origin_other (hk hdk) (hk hsk), Option.bind_some]
        exact hm.parent hne

theorem agreeOutside_moved {T : List ν} {n n' : ν} (h : n :: T <:+ src) (h' : n' :: T <:+ dst) :
    AgreeOutside T m (moved x src dst m) := by
  intro ℓ hℓ
  rw [moved, origin_other (fun hs => hℓ n' (h'.trans hs)) (fun hs => hℓ n (h.trans hs))]
  rfl

end

end

end FileTree
