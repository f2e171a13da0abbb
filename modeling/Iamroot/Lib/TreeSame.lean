import Iamroot.Lib.Tree

/-!
# Walks that end at the same place

Dots and empty components before a name change nothing. In a tree to which a
link is added, a walk comes to the link where the name was missing before, and
in a tree that has grown a walk comes to what it came to. A walk that keeps no
missing names ends at something or in a directory.
-/

namespace FileTree

namespace DirTree

/-- The first text is the second with dots and empty components put before names. -/
inductive Dotted {ν : Type*} : List (Comp ν) → List (Comp ν) → Prop
  | nil : Dotted [] []
  | cons (c : Comp ν) {cs cs' : List (Comp ν)} : Dotted cs cs' → Dotted (c :: cs) (c :: cs')
  | here (x : ν) {c : Comp ν} {cs cs' : List (Comp ν)} :
    c = .empty ∨ c = .dot → Dotted cs (.name x :: cs') → Dotted (c :: cs) (.name x :: cs')

section
variable {ν : Type*} [DecidableEq ν] {t : DirTree ν} {r : Rules ν} {n : Nat} {ℓ : List ν} {c : Comp ν}
  {cs cs' : List (Comp ν)}

/-! ## Dots and empty components -/

omit [DecidableEq ν] in
theorem Dotted.append (h : Dotted cs cs') : ∀ ds : List (Comp ν), Dotted (ds ++ cs) (ds ++ cs')
  | [] => h
  | d :: ds => .cons d (h.append ds)

omit [DecidableEq ν] in
theorem Dotted.isEmpty_eq (h : Dotted cs cs') : cs.isEmpty = cs'.isEmpty := by
  cases h <;> rfl

omit [DecidableEq ν] in
theorem Dotted.all_eq (h : Dotted cs cs') : cs.all Comp.isEmpty = cs'.all Comp.isEmpty := by
  induction h with
  | nil => rfl
  | cons c _ ih => rw [List.all_cons, List.all_cons, ih]
  | here x _ _ ih => simp [ih, Comp.isEmpty]

omit [DecidableEq ν] in
theorem dotted_names (hup : .up ∉ cs) : ∃ ns : List ν, ∀ x, Dotted (cs ++ [.name x]) (ns.map .name ++ [.name x]) := by
  induction cs with
  | nil => exact ⟨[], fun x => .cons _ .nil⟩
  | cons c cs ih =>
    obtain ⟨ns, hns⟩ := ih fun h => hup (List.mem_cons_of_mem c h)
    have hhere : c = .empty ∨ c = .dot → ∀ x, Dotted (c :: cs ++ [.name x]) (ns.map .name ++ [.name x]) := by
      intro hc x
      have h := hns x
      cases ns with
      | nil => exact .here x hc h
      | cons y ns => exact .here y hc h
    cases c with
    | empty => exact ⟨ns, hhere (.inl rfl)⟩
    | dot => exact ⟨ns, hhere (.inr rfl)⟩
    | up => exact absurd List.mem_cons_self hup
    | name y => exact ⟨y :: ns, fun x => .cons _ (hns x)⟩

theorem move_rest (h : Dotted cs cs') : t.move r ℓ c cs = t.move r ℓ c cs' := by
  cases c with
  | empty | dot | up => rfl
  | name x => simp only [move, h.isEmpty_eq, h.all_eq]

theorem move_file (h : t.isFile ℓ = true) (x : ν) (cs : List (Comp ν)) : t.move r ℓ (.name x) cs = .stop .notDir := by
  have hn : t.node (x :: ℓ) = none := by
    by_contra hn
    have hd := t.parent_dir hn
    rw [isFile, hd] at h
    cases h
  simp only [move, hn, h, if_true]

theorem walk_dotted (h : Dotted cs cs') : t.walk r n ℓ cs = t.walk r n ℓ cs' := by
  induction n, ℓ, cs using walk_induct t r generalizing cs' with
  | nil n ℓ =>
    cases h
    rfl
  | stop n ℓ c cs e hs =>
    cases h with
    | cons _ h => rw [walk_stop hs, walk_stop ((move_rest h).symm.trans hs)]
    | here x hc h =>
      -- the walk stops at a file, where the name behind the dots is missing
      have hf : t.isFile ℓ = true ∧ e = .notDir := by
        rcases hc with rfl | rfl <;> simp only [move] at hs <;> split at hs <;> cases hs <;> exact ⟨‹_›, rfl⟩
      rw [walk_stop hs, walk_stop (move_file hf.1 x _), hf.2]
  | go n ℓ c cs ℓ' hs ih =>
    cases h with
    | cons _ h => rw [walk_go hs, walk_go ((move_rest h).symm.trans hs), ih h]
    | here x hc h =>
      have hℓ : ℓ' = ℓ := by
        rcases hc with rfl | rfl <;> simp only [move] at hs <;> split at hs <;> cases hs <;> rfl
      rw [walk_go hs, ih h, hℓ]
  | loop ℓ c cs ℓ' target hs =>
    cases h with
    | cons _ h => rw [walk_loop hs, walk_loop ((move_rest h).symm.trans hs)]
    | here x hc h => rcases hc with rfl | rfl <;> simp only [move] at hs <;> split at hs <;> cases hs
  | expand n ℓ c cs ℓ' target hs ih =>
    cases h with
    | cons _ h => rw [walk_expand hs, walk_expand ((move_rest h).symm.trans hs), ih (h.append target)]
    | here x hc h => rcases hc with rfl | rfl <;> simp only [move] at hs <;> split at hs <;> cases hs

end

/-! ## Two spellings of a path -/

/-- The texts differ in dots and empty components, and in names of directories that are taken back. -/
inductive Respelled {ν : Type*} [DecidableEq ν] (t : DirTree ν) (r : Rules ν) (n : Nat) (ℓ : List ν) :
    List (Comp ν) → List (Comp ν) → Prop
  | refl (cs : List (Comp ν)) : Respelled t r n ℓ cs cs
  | symm {cs cs' : List (Comp ν)} : Respelled t r n ℓ cs cs' → Respelled t r n ℓ cs' cs
  | trans {cs cs' cs'' : List (Comp ν)} :
    Respelled t r n ℓ cs cs' → Respelled t r n ℓ cs' cs'' → Respelled t r n ℓ cs cs''
  | here {c : Comp ν} (pre post : List (Comp ν)) {v : List ν × Nat} : c = .empty ∨ c = .dot →
    t.walk r n ℓ pre = .ok v → t.isFile v.1 = false → Respelled t r n ℓ (pre ++ c :: post) (pre ++ post)
  | back (x : ν) (pre post : List (Comp ν)) {v : List ν × Nat} : t.walk r n ℓ pre = .ok v →
    t.node (x :: v.1) = some .dir → Respelled t r n ℓ (pre ++ .name x :: .up :: post) (pre ++ post)

section
variable {ν : Type*} [DecidableEq ν] {t t' : DirTree ν} {r : Rules ν} {n n' : Nat} {ℓ ℓ' : List ν} {x : ν}
  {cs cs' : List (Comp ν)}

theorem walk_skip {c : Comp ν} (hc : c = .empty ∨ c = .dot) (hf : t.isFile ℓ = false) :
    t.walk r n ℓ (c :: cs) = t.walk r n ℓ cs := by
  apply walk_go
  rcases hc with rfl | rfl <;> simp only [move, hf, Bool.false_eq_true, if_false]

theorem walk_back (hs : r.stop = []) (hk : r.keep = true) (hℓ : t.isFile ℓ = false) (hf : t.isFile (x :: ℓ) = false)
    (hl : t.isLink (x :: ℓ) = false) : t.walk r n ℓ (.name x :: .up :: cs) = t.walk r n ℓ cs := by
  have hname : t.move r ℓ (.name x) (.up :: cs) = .go (x :: ℓ) := by
    by_cases hn : t.node (x :: ℓ) = none
    · rw [move_name_none hn hℓ, hk, Bool.true_or, if_pos rfl]
    · exact move_name_clear hn hl
  have hup : t.move r (x :: ℓ) .up cs = .go ℓ := by
    have hp : r.parent (x :: ℓ) = ℓ := by simp [Rules.parent, hs]
    simp only [move, hf, hp, Bool.false_eq_true, if_false]
  rw [walk_go hname, walk_go hup]

/-- Two spellings of a path lead to the same place. -/
theorem walk_respelled (hfollow : r.follow = true) (hk : r.keep = true) (hs : r.stop = [])
    (h : Respelled t r n ℓ cs cs') : t.walk r n ℓ cs = t.walk r n ℓ cs' := by
  induction h with
  | refl cs => rfl
  | symm _ ih => exact ih.symm
  | trans _ _ ih ih' => exact ih.trans ih'
  | here pre post hc hw hf =>
    rw [walk_append hfollow hk, walk_append hfollow hk, hw]
    exact walk_skip hc hf
  | back x pre post hw hd =>
    rw [walk_append hfollow hk, walk_append hfollow hk, hw]
    apply walk_back hs hk
    · exact isFile_parent (by rw [hd]; simp)
    · rw [isFile, hd]
    · rw [isLink, hd]

theorem walk_respelled_bare (hfollow : r.follow = true) (hk : r.keep = true) (hs : r.stop = [])
    (hfile : ∀ m, t'.isFile m = false) (hlink : ∀ m, t'.isLink m = false) (h : Respelled t r n ℓ cs cs') :
    t'.walk r n' ℓ' cs = t'.walk r n' ℓ' cs' := by
  induction h with
  | refl cs => rfl
  | symm _ ih => exact ih.symm
  | trans _ _ ih ih' => exact ih.trans ih'
  | here pre post hc =>
    rw [walk_append hfollow hk, walk_append hfollow hk]
    cases t'.walk r n' ℓ' pre with
    | error e => rfl
    | ok v => exact walk_skip hc (hfile v.1)
  | back x pre post =>
    rw [walk_append hfollow hk, walk_append hfollow hk]
    cases t'.walk r n' ℓ' pre with
    | error e => rfl
    | ok v => exact walk_back hs hk (hfile _) (hfile _) (hlink _)

end

/-! ## A link that is added -/

section
variable {ν : Type*} [DecidableEq ν] {t : DirTree ν} {r : Rules ν} {n : Nat} {ℓ : List ν} {c : Comp ν} {cs : List (Comp ν)}

variable {t' : DirTree ν} {m : List ν} (hm : t.node m = none) (hnode : ∀ ℓ, ℓ ≠ m → t'.node ℓ = t.node ℓ)
  (hlink : t'.isLink m = true)
include hm hnode hlink

theorem isFile_add (ℓ : List ν) : t'.isFile ℓ = t.isFile ℓ := by
  by_cases h : ℓ = m
  · subst h
    unfold isLink at hlink
    unfold isFile
    split at hlink
    · rename_i hl
      rw [hm, hl]
    · cases hlink
  · unfold isFile
    rw [hnode ℓ h]

theorem move_add (hm' : ∀ x, c = .name x → x :: ℓ ≠ m) : t'.move r ℓ c cs = t.move r ℓ c cs := by
  have hfile := isFile_add hm hnode hlink ℓ
  cases c with
  | empty | dot | up => simp only [move, hfile]
  | name x => simp only [move, hfile, hnode (x :: ℓ) (hm' x rfl)]

/-- A walk that ends at a missing name ends there again when the name is that of a link, which is
the last component and is not followed. -/
theorem walk_add (hf : r.follow = false) (hk : r.keep = false) {k : Nat} (hne : cs ≠ []) (hlast : cs.getLast? ≠ some .empty)
    (hw : t.walk r n ℓ cs = .ok (m, k)) : t'.walk r n ℓ cs = .ok (m, k) := by
  induction n, ℓ, cs using walk_induct t r with
  | nil n ℓ => exact absurd rfl hne
  | stop n ℓ c cs e hs =>
    rw [walk_stop hs] at hw
    cases hw
  | go n ℓ c cs ℓ' hs ih =>
    rw [walk_go hs] at hw
    have hs' : t'.move r ℓ c cs = .go ℓ' := by
      by_cases hx : ∃ x, c = .name x ∧ x :: ℓ = m
      · obtain ⟨x, rfl, rfl⟩ := hx
        -- the name is missing, so that nothing is left behind it
        have hcs : cs = [] := by
          by_contra hcs
          rw [List.getLast?_cons_of_ne_nil hcs] at hlast
          have hall : cs.all Comp.isEmpty = true := by
            simp only [move, hm, hk, Bool.false_or] at hs
            split at hs
            · cases hs
            · split at hs
              · assumption
              · cases hs
          have he := List.all_eq_true.mp hall _ (List.getLast_mem hcs)
          refine hlast ?_
          rw [List.getLast?_eq_some_getLast hcs]
          cases hl : cs.getLast hcs with
          | empty => rfl
          | dot | up | name y =>
            rw [hl] at he
            cases he
        have hgo : ℓ' = x :: ℓ := by
          rcases move_go hs with ⟨hc, -⟩ | ⟨hc, -⟩ | ⟨y, hy, h⟩
          · rcases hc with hc | hc <;> cases hc
          · cases hc
          · cases hy
            exact h
        unfold isLink at hlink
        split at hlink
        · rename_i absolute target hl
          simp [move, hl, hf, hcs, hgo]
        · cases hlink
      · rw [move_add hm hnode hlink fun x hc hxm => hx ⟨x, hc, hxm⟩, hs]
    rw [walk_go hs']
    by_cases hcs : cs = []
    · rw [hcs, walk_nil] at hw ⊢
      exact hw
    · exact ih hcs (by rwa [List.getLast?_cons_of_ne_nil hcs] at hlast) hw
  | loop ℓ c cs ℓ' target hs =>
    rw [walk_loop hs] at hw
    cases hw
  | expand n ℓ c cs ℓ' target hs ih =>
    rw [walk_expand hs] at hw
    obtain ⟨x, absolute, rfl, hx, hcs, -⟩ := move_expand hs
    have hcs : cs ≠ [] := by
      intro h
      simp [hf, h] at hcs
    have hs' : t'.move r ℓ (.name x) cs = .expand ℓ' target := by
      rw [move_add hm hnode hlink ?_, hs]
      intro y hy hym
      cases hy
      rw [hym, hm] at hx
      cases hx
    rw [walk_expand hs']
    refine ih (by simp [hcs]) ?_ hw
    rwa [List.getLast?_append_of_ne_nil _ hcs, ← List.getLast?_cons_of_ne_nil hcs]

end

/-! ## A tree that has grown -/

def Grows {ν : Type*} (t t' : DirTree ν) : Prop := ∀ ℓ, t.node ℓ ≠ none → t'.node ℓ = t.node ℓ

section
variable {ν : Type*} [DecidableEq ν] {t t' : DirTree ν} {r : Rules ν} {n : Nat} {ℓ : List ν} {c : Comp ν} {cs : List (Comp ν)}

omit [DecidableEq ν] in
theorem Grows.isFile (hg : t.Grows t') (h : t.node ℓ ≠ none) : t'.isFile ℓ = t.isFile ℓ := by
  rw [DirTree.isFile, DirTree.isFile, hg ℓ h]

theorem move_there (hk : r.keep = false) {v : List ν × Nat} (hv : t.node v.1 ≠ none) (hℓ : t.node ℓ ≠ none)
    (h : t.walk r n ℓ (c :: cs) = .ok v) {ℓ' : List ν} (hs : t.move r ℓ c cs = .go ℓ') : t.node ℓ' ≠ none := by
  obtain ⟨-, rfl⟩ | ⟨-, rfl⟩ | ⟨x, rfl, rfl⟩ := move_go hs
  · exact hℓ
  · unfold Rules.parent
    split
    · exact hℓ
    · cases ℓ with
      | nil => exact hℓ
      | cons y ℓ =>
        rw [List.tail_cons, t.parent_dir hℓ]
        exact Option.some_ne_none _
  · exact exists_of_walk hk hv h

theorem expand_there (htop : t.node r.top ≠ none) (hℓ : t.node ℓ ≠ none) {ℓ' : List ν} {target : List (Comp ν)}
    (hs : t.move r ℓ c cs = .expand ℓ' target) : t.node ℓ' ≠ none := by
  obtain ⟨x, absolute, -, -, -, rfl⟩ := move_expand hs
  split
  · exact htop
  · exact hℓ

theorem move_grow (hg : t.Grows t') (hk : r.keep = false) {v : List ν × Nat} (hv : t.node v.1 ≠ none) (hℓ : t.node ℓ ≠ none)
    (h : t.walk r n ℓ (c :: cs) = .ok v) : t'.move r ℓ c cs = t.move r ℓ c cs := by
  have hfile := hg.isFile hℓ
  cases c with
  | empty | dot | up => simp only [move, hfile]
  | name x => simp only [move, hfile, hg (x :: ℓ) (exists_of_walk hk hv h)]

/-- What a walk has found it finds again. -/
theorem walk_grow (hg : t.Grows t') (hk : r.keep = false) (htop : t.node r.top ≠ none) {v : List ν × Nat} (hv : t.node v.1 ≠ none)
    (hℓ : t.node ℓ ≠ none) (h : t.walk r n ℓ cs = .ok v) : t'.walk r n ℓ cs = .ok v := by
  induction n, ℓ, cs using walk_induct t r with
  | nil n ℓ => rwa [walk_nil] at h ⊢
  | stop n ℓ c cs e hs =>
    rw [walk_stop hs] at h
    cases h
  | go n ℓ c cs ℓ' hs ih =>
    rw [walk_go ((move_grow hg hk hv hℓ h).trans hs)]
    exact ih (move_there hk hv hℓ h hs) (by rwa [walk_go hs] at h)
  | loop ℓ c cs ℓ' target hs =>
    rw [walk_loop hs] at h
    cases h
  | expand n ℓ c cs ℓ' target hs ih =>
    rw [walk_expand ((move_grow hg hk hv hℓ h).trans hs)]
    exact ih (expand_there htop hℓ hs) (by rwa [walk_expand hs] at h)

end

/-! ## Where a walk ends -/

section
variable {ν : Type*} [DecidableEq ν] {t : DirTree ν} {r : Rules ν} {n : Nat} {ℓ : List ν} {cs : List (Comp ν)}

/-- A walk that ends could have expanded more links. -/
theorem walk_more {m : List ν} {k : Nat} (j : Nat) (h : t.walk r n ℓ cs = .ok (m, k)) :
    t.walk r (n + j) ℓ cs = .ok (m, k + j) := by
  induction n, ℓ, cs using walk_induct t r with
  | nil n ℓ =>
    rw [walk_nil, Except.ok.injEq, Prod.mk.injEq] at h
    rw [walk_nil, h.1, h.2]
  | stop n ℓ c cs e hs =>
    rw [walk_stop hs] at h
    cases h
  | go n ℓ c cs ℓ' hs ih =>
    rw [walk_go hs] at h ⊢
    exact ih h
  | loop ℓ c cs ℓ' target hs =>
    rw [walk_loop hs] at h
    cases h
  | expand n ℓ c cs ℓ' target hs ih =>
    rw [walk_expand hs] at h
    rw [Nat.add_right_comm, walk_expand hs]
    exact ih h

/-- Something that the walk may go on from, or a name that is missing in a directory with nothing
left behind it. -/
def Reached (t : DirTree ν) (ℓ : List ν) (cs : List (Comp ν)) : Prop :=
  (t.node ℓ ≠ none ∧ (t.isLink ℓ = true → cs = [])) ∨ (cs.all Comp.isEmpty = true ∧ t.node ℓ.tail = some .dir)

omit [DecidableEq ν] in
theorem reached_dir (h : t.node ℓ = some .dir) (cs : List (Comp ν)) : t.Reached ℓ cs := by
  refine .inl ⟨by simp [h], fun hl => ?_⟩
  simp [isLink, h] at hl

omit [DecidableEq ν] in
theorem dir_of_not {ℓ : List ν} (h : t.node ℓ ≠ none) (hf : t.isFile ℓ = false) (hl : t.isLink ℓ = false) :
    t.node ℓ = some .dir := by
  unfold isFile at hf
  unfold isLink at hl
  cases hn : t.node ℓ with
  | none => exact absurd hn h
  | some x =>
    cases x with
    | dir => rfl
    | file => simp [hn] at hf
    | link absolute target => simp [hn] at hl

theorem reached_move (hk : r.keep = false) {c : Comp ν} {ℓ' : List ν} (h : t.Reached ℓ (c :: cs))
    (hm : t.move r ℓ c cs = .go ℓ') : t.Reached ℓ' cs := by
  rcases h with ⟨hne, hlink⟩ | ⟨hall, htail⟩
  · have hl : t.isLink ℓ = false := by
      rw [Bool.eq_false_iff]
      intro hl
      cases hlink hl
    have hdir : t.isFile ℓ = false → t.node ℓ = some .dir := fun hf => dir_of_not hne hf hl
    cases c with
    | empty | dot =>
      simp only [move] at hm
      split at hm
      · cases hm
      · cases hm
        exact reached_dir (hdir (by simpa using ‹¬ t.isFile ℓ = true›)) cs
    | up =>
      simp only [move] at hm
      split at hm
      · cases hm
      · have hd := hdir (by simpa using ‹¬ t.isFile ℓ = true›)
        cases hm
        refine reached_dir ?_ cs
        unfold Rules.parent
        split
        · exact hd
        · cases ℓ with
          | nil => exact hd
          | cons x ℓ => exact t.parent_dir hne
    | name x =>
      by_cases hx : t.node (x :: ℓ) = none
      · cases hf : t.isFile ℓ with
        | true =>
          simp only [move, hx, hf, if_true] at hm
          cases hm
        | false =>
          rw [move_name_none hx hf, hk, Bool.false_or] at hm
          split at hm
          · cases hm
            exact .inr ⟨‹_›, hdir hf⟩
          · cases hm
      · obtain ⟨hc, -⟩ | ⟨hc, -⟩ | ⟨y, hy, rfl⟩ := move_go hm
        · rcases hc with hc | hc <;> cases hc
        · cases hc
        · cases hy
          refine .inl ⟨hx, fun hl => ?_⟩
          unfold isLink at hl
          split at hl
          · rename_i absolute target hn
            simp only [move, hn] at hm
            split at hm
            · cases hm
            · exact (by simpa using ‹¬ (r.follow || !cs.isEmpty) = true› : r.follow = false ∧ cs = []).2
          · cases hl
  · rw [List.all_cons, Bool.and_eq_true] at hall
    cases c with
    | empty =>
      have hℓ : ℓ' = ℓ := by
        obtain ⟨-, h⟩ | ⟨h, -⟩ | ⟨y, h, -⟩ := move_go hm
        · exact h
        · cases h
        · cases h
      rw [hℓ]
      exact .inr ⟨hall.2, htail⟩
    | dot | up | name x => cases hall.1

/-- A walk that does not keep missing names ends at something, or at a name in a directory. -/
theorem walk_ends (hk : r.keep = false) (htop : t.node r.top = some .dir) {v : List ν × Nat} (hℓ : t.Reached ℓ cs)
    (h : t.walk r n ℓ cs = .ok v) : t.Reached v.1 [] := by
  induction n, ℓ, cs using walk_induct t r with
  | nil n ℓ =>
    rw [walk_nil, Except.ok.injEq] at h
    rw [← h]
    exact hℓ
  | stop n ℓ c cs e hs =>
    rw [walk_stop hs] at h
    cases h
  | go n ℓ c cs ℓ' hs ih =>
    rw [walk_go hs] at h
    exact ih (reached_move hk hℓ hs) h
  | loop ℓ c cs ℓ' target hs =>
    rw [walk_loop hs] at h
    cases h
  | expand n ℓ c cs ℓ' target hs ih =>
    rw [walk_expand hs] at h
    refine ih ?_ h
    obtain ⟨x, absolute, rfl, hx, -, rfl⟩ := move_expand hs
    split
    · exact reached_dir htop _
    · exact reached_dir (t.parent_dir (by rw [hx]; simp)) _

theorem beneath_go (hr : r.stop = r.top) {c : Comp ν} {ℓ' : List ν} (hℓ : r.top <:+ ℓ) (hm : t.move r ℓ c cs = .go ℓ') :
    r.top <:+ ℓ' := by
  obtain ⟨-, rfl⟩ | ⟨-, rfl⟩ | ⟨y, -, rfl⟩ := move_go hm
  · exact hℓ
  · unfold Rules.parent
    split
    · exact hℓ
    · obtain ⟨pre, rfl⟩ := hℓ
      cases pre with
      | nil => exact absurd hr.symm ‹_›
      | cons y pre => exact List.suffix_append pre r.top
  · exact hℓ.trans (List.suffix_cons y ℓ)

theorem walk_last (hf : r.follow = false) (hr : r.stop = r.top) {x : ν} {v : List ν × Nat} (hℓ : r.top <:+ ℓ)
    (h : t.walk r n ℓ (cs ++ [.name x]) = .ok v) : ∃ m, v.1 = x :: m ∧ r.top <:+ m := by
  generalize hds : cs ++ [.name x] = ds at h
  induction n, ℓ, ds using walk_induct t r generalizing cs with
  | nil n ℓ => simp at hds
  | stop n ℓ c ds e hs =>
    rw [walk_stop hs] at h
    cases h
  | go n ℓ c ds ℓ' hs ih =>
    rw [walk_go hs] at h
    cases cs with
    | nil =>
      rw [List.nil_append, List.cons.injEq] at hds
      obtain ⟨rfl, rfl⟩ := hds
      obtain ⟨hc, -⟩ | ⟨hc, -⟩ | ⟨y, hy, rfl⟩ := move_go hs
      · rcases hc with hc | hc <;> cases hc
      · cases hc
      · cases hy
        rw [walk_nil, Except.ok.injEq] at h
        exact ⟨ℓ, by rw [← h], hℓ⟩
    | cons d cs =>
      rw [List.cons_append, List.cons.injEq] at hds
      exact ih (beneath_go hr hℓ hs) hds.2 h
  | loop ℓ c ds ℓ' target hs =>
    rw [walk_loop hs] at h
    cases h
  | expand n ℓ c ds ℓ' target hs ih =>
    rw [walk_expand hs] at h
    obtain ⟨y, absolute, rfl, -, hfollow, rfl⟩ := move_expand hs
    cases cs with
    | nil =>
      -- the name at the end is not followed
      rw [List.nil_append, List.cons.injEq] at hds
      rw [hf, ← hds.2] at hfollow
      cases hfollow
    | cons d cs =>
      rw [List.cons_append, List.cons.injEq] at hds
      refine ih ?_ ((List.append_assoc target cs _).trans (congrArg (target ++ ·) hds.2)) h
      split
      · exact List.suffix_rfl
      · exact hℓ

end

end DirTree

end FileTree
