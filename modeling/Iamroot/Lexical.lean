import Iamroot.InChroot

/-!
# Paths that are only shortened

When links are not followed `__realpathat` asks the host nothing: it drops dots
and slashes, and lets `..` take away the name before it. What the kernel then
makes of the shortened path is another matter.
-/

namespace Iamroot

open FileTree

def shorten : Loc → List (Comp Str) → Loc
  | ℓ, [] => ℓ
  | ℓ, .empty :: cs => shorten ℓ cs
  | ℓ, .dot :: cs => shorten ℓ cs
  | ℓ, .up :: cs => shorten ℓ.tail cs
  | ℓ, .name m :: cs => shorten (m :: ℓ) cs

def Stays (R : Loc) : Loc → List (Comp Str) → Prop
  | _, [] => True
  | ℓ, .empty :: cs => Stays R ℓ cs
  | ℓ, .dot :: cs => Stays R ℓ cs
  | ℓ, .up :: cs => ℓ ≠ R ∧ Stays R ℓ.tail cs
  | ℓ, .name m :: cs => Stays R (m :: ℓ) cs

instance (R : Loc) : ∀ (ℓ : Loc) (cs : List (Comp Str)), Decidable (Stays R ℓ cs)
  | _, [] => inferInstanceAs (Decidable True)
  | ℓ, .empty :: cs => instDecidableStays R ℓ cs
  | ℓ, .dot :: cs => instDecidableStays R ℓ cs
  | ℓ, .up :: cs => @instDecidableAnd _ _ (inferInstanceAs (Decidable (ℓ ≠ R))) (instDecidableStays R ℓ.tail cs)
  | ℓ, .name m :: cs => instDecidableStays R (m :: ℓ) cs

section
variable {R : RootDir} {cwd ℓ : Loc} {cs : List (Comp Str)} {n : Nat} {p : Str}

theorem shorten_beneath (h : Stays R.loc ℓ cs) (hℓ : R.loc <:+ ℓ) : R.loc <:+ shorten ℓ cs := by
  induction cs generalizing ℓ with
  | nil => exact hℓ
  | cons c cs ih =>
    cases c with
    | empty | dot => exact ih h hℓ
    | up =>
      refine ih h.2 ?_
      obtain ⟨pre, rfl⟩ := hℓ
      cases pre with
      | nil => exact absurd rfl h.1
      | cons y pre => exact List.suffix_append pre R.loc
    | name m => exact ih h (hℓ.trans (List.suffix_cons m ℓ))

theorem shorten_append (ℓ : Loc) (cs ds : List (Comp Str)) : shorten ℓ (cs ++ ds) = shorten (shorten ℓ cs) ds := by
  induction cs generalizing ℓ with
  | nil => rfl
  | cons c cs ih => cases c <;> exact ih _

theorem shorten_names (ℓ : Loc) (ns : List Str) : shorten ℓ (ns.map .name) = ns.reverse ++ ℓ := by
  induction ns generalizing ℓ with
  | nil => rfl
  | cons m ns ih => rw [List.map_cons, shorten, ih, List.reverse_cons, List.append_assoc]; rfl

theorem walk_blank (n : Nat) (ℓ : Loc) (cs : List (Comp Str)) :
    (DirTree.blank : DirTree Str).walk tolerant n ℓ cs = .ok (shorten ℓ cs, n) := by
  induction cs generalizing ℓ with
  | nil => exact DirTree.walk_nil n ℓ
  | cons c cs ih =>
    have hf : ¬ (DirTree.blank : DirTree Str).isFile ℓ = true := by rw [FileSystem.isFile_blank]; decide
    cases c with
    | empty => rw [DirTree.walk_go ((move_here_tolerant (Or.inl rfl)).trans (if_neg hf)), ih]; rfl
    | dot => rw [DirTree.walk_go ((move_here_tolerant (Or.inr rfl)).trans (if_neg hf)), ih]; rfl
    | up => rw [DirTree.walk_go (move_up_tolerant.trans (if_neg hf)), ih]; rfl
    | name m =>
      have hm : (DirTree.blank : DirTree Str).move tolerant ℓ (.name m) cs = .go (m :: ℓ) := by
        rw [move_name_tolerant, if_neg hf]
        rfl
      rw [DirTree.walk_go hm, ih]
      rfl

/-! ## The text always fits -/

def Place.room (o : Place) : Nat := o.text.length + if needsSlash o.text then 1 else 0

variable {o : Place}

theorem length_addName_eq (o : Place) (c : Str) : (addName o.text c).length = o.room + c.length := by
  rw [Place.length_addName, Place.room]
  omega

theorem Place.room_push (o : Place) (c : Str) : (o.push c).room ≤ o.room + c.length + 1 := by
  have hle : (if needsSlash (addName o.text c) = true then 1 else 0) ≤ 1 := by split <;> omega
  rw [Place.room, Place.text_push, length_addName_eq]
  omega

theorem Place.room_up (h : o.Ok) (hb : o.base ≠ .cwd) : o.up.room ≤ o.room := by
  cases hn : o.names with
  | nil =>
    have hu : o.up = o := by simp [Place.up, hn, hb]
    rw [hu]
  | cons c ℓ =>
    have ht : o.text = addName o.up.text c := by simp only [Place.text, Place.up, hn]; rfl
    have hc := List.length_pos_of_ne_nil (h.valid c (by simp [hn])).1
    have hr : o.room = o.text.length + if needsSlash o.text then 1 else 0 := rfl
    rw [hr, ht, length_addName_eq]
    omega

theorem length_unparse_cons (c : Comp Str) (hcs : cs ≠ []) :
    (unparse (c :: cs)).length = (compText c).length + 1 + (unparse cs).length := by
  have h : unparse (c :: cs) = compText c ++ '/' :: unparse cs := join_cons (compText c) (by simpa using hcs)
  rw [h, List.length_append, List.length_cons]
  omega

theorem length_unparse_singleton (c : Comp Str) : (unparse [c]).length = (compText c).length := rfl

/-- The walk of the blank tree has something to say about a short text. -/
theorem advance_blank (h : o.Ok) (hb : o.base ≠ .cwd) (hv : NamesOk cs) (hcs : cs ≠ [])
    (hlen : o.room + (unparse cs).length < pathMax) : (advance DirTree.blank cwd n o cs).isSome = true := by
  induction cs generalizing o with
  | nil => exact absurd rfl hcs
  | cons c cs ih =>
    have hend : ∀ {o : Place}, o.base ≠ .cwd → (advance DirTree.blank cwd n o []).isSome = true := by
      intro o hb
      rw [advance_nil, Place.endFits, decide_eq_true hb]
      rfl
    have htail : NamesOk cs := fun m hm => hv m (List.mem_cons_of_mem c hm)
    have hle : (unparse [c]).length ≤ (unparse (c :: cs)).length := by
      by_cases hcs : cs = []
      · rw [hcs]
      · rw [length_unparse_cons c hcs, length_unparse_singleton]
        omega
    rw [length_unparse_singleton] at hle
    have hs : ¬ pathMax ≤ (addName o.text (compText c)).length := by
      rw [length_addName_eq]
      omega
    have hf : (DirTree.blank : DirTree Str).isFile (o.loc cwd) = false := FileSystem.isFile_blank _
    -- what is left, from the next place on
    have hnext : ∀ {o' : Place}, o'.Ok → o'.base ≠ .cwd → o'.room ≤ o.room + (compText c).length + 1 →
        (advance DirTree.blank cwd n o' cs).isSome = true := by
      intro o' h' hb' hr
      by_cases hcs : cs = []
      · rw [hcs]
        exact hend hb'
      · refine ih h' hb' htail hcs ?_
        rw [length_unparse_cons c hcs] at hlen
        omega
    rw [advance_eq] at hnext ⊢
    unfold advanceWith
    rw [if_neg hs]
    cases c with
    | empty | dot =>
      simp only [hf, Bool.and_false, Bool.false_eq_true, if_false]
      exact hnext h hb (by omega)
    | up =>
      simp only [hf, Bool.false_eq_true, if_false]
      exact hnext h.up ((Place.base_up o).symm ▸ hb) (by have := Place.room_up h hb; omega)
    | name m =>
      simp only [hf, Bool.false_eq_true, if_false]
      exact hnext (h.push (hv m List.mem_cons_self)) hb (o.room_push m)

/-! ## What the shortened path is -/

theorem shorten_here {ds : List (Comp Str)} (h : ∀ c ∈ ds, c = .empty ∨ c = .dot) (ℓ : Loc) : shorten ℓ ds = ℓ := by
  induction ds with
  | nil => rfl
  | cons c ds ih =>
    have ih := ih fun d hd => h d (List.mem_cons_of_mem c hd)
    rcases h c (by simp) with rfl | rfl <;> exact ih

theorem shorten_trims {s s' : Str} (h : Trims s s') (ℓ : Loc) : shorten ℓ (parse s') = shorten ℓ (parse s) := by
  obtain ⟨pre, post, hp, hpre, hpost⟩ := h.comps
  rw [hp, shorten_append, shorten_append, shorten_here (fun c hc => Or.inr (hpre c hc)), shorten_here hpost]

theorem shorten_render {ℓ : Loc} (hv : ValidLoc ℓ) : shorten [] (parse (render ℓ)) = ℓ := by
  rw [parse_render hv, shorten, shorten_names, List.reverse_reverse, List.append_nil]

theorem shorten_root (hp : p = [] ∨ isAbs p = true) : shorten [] (parse (R.path ++ p)) = shorten R.loc (parse p) := by
  cases p with
  | nil =>
    rw [List.append_nil]
    exact shorten_render R.valid
  | cons x w =>
    have hx : x = '/' := by simpa [isAbs] using hp
    subst hx
    rw [parse_append, shorten_append, RootDir.path, shorten_render R.valid, parse_slash]
    rfl

theorem written_blank : Written DirTree.blank := by
  intro ℓ absolute target hn
  cases ℓ <;> cases hn

theorem noDouble_blank : NoDouble DirTree.blank := by
  intro ℓ s hn
  cases ℓ <;> cases hn

theorem resolved_blank (hp : p = [] ∨ isAbs p = true) (hnul : nul ∉ p) (hlen : (R.path ++ p).length < pathMax) (cwd : Loc) :
    resolved DirTree.blank cwd (pathSanitize (R.path ++ p)) = some (.ok (.ofLoc (shorten R.loc (parse p)))) ∧
      ValidLoc (shorten R.loc (parse p)) ∧ (pathOf (shorten R.loc (parse p))).length < pathMax := by
  have hT := trims_sanitize (R.path ++ p)
  have habs : isAbs (pathSanitize (R.path ++ p)) = true := hT.abs.trans (isAbs_path_append R p)
  have hdb : double (pathSanitize (R.path ++ p)) = false :=
    double_of_lead R.valid R.ne_nil (hT.lead (isAbs_path_append R p))
  have hnul' := nul_not_mem_sanitize R hnul
  have hle : (pathSanitize (R.path ++ p)).length < pathMax := Nat.lt_of_le_of_lt hT.part.length_le hlen
  have hsh : shorten [] (parse (pathSanitize (R.path ++ p))) = shorten R.loc (parse p) :=
    (shorten_trims hT []).trans (shorten_root hp)
  have hsome : (resolved DirTree.blank cwd (pathSanitize (R.path ++ p))).isSome = true := by
    rw [resolved, start_abs habs hdb]
    cases hs : pathSanitize (R.path ++ p) with
    | nil => rw [hs] at habs; cases habs
    | cons x w =>
      have hx : x = '/' := by simpa [hs, isAbs] using habs
      subst hx
      rw [hs, List.length_cons] at hle
      have hf : (DirTree.blank : DirTree Str).isFile ((Place.ofLoc []).loc cwd) = false := FileSystem.isFile_blank _
      have hw : nul ∉ w := fun hm => hnul' (by rw [hs]; exact List.mem_cons_of_mem _ hm)
      have hroom : (Place.ofLoc []).room = 1 := rfl
      rw [parse_slash, advance_empty (by decide) hf]
      refine advance_blank (Place.ofLoc_ok (by simp [ValidLoc])) (by simp) (namesOk_parse hw) (parse_ne_nil w) ?_
      rw [unparse_parse, hroom]
      omega
  obtain ⟨r, hr⟩ := Option.isSome_iff_exists.mp hsome
  have hloc := hr
  rw [resolved, start_abs habs hdb] at hloc
  have hloc := walk_of_advance written_blank _ _ _ hloc
  have h0 : (Place.ofLoc []).loc cwd = [] := rfl
  rw [h0, walk_blank, hsh] at hloc
  cases r with
  | error e => cases hloc
  | ok o =>
    obtain ⟨he, hv, -, hs⟩ := resolved_abs written_blank noDouble_blank habs hdb hnul' hr
    have hl : o.loc cwd = o.names := by rw [he]; simp [Place.loc, Place.ofLoc]
    have hℓ : shorten R.loc (parse p) = o.names := (Except.ok.inj hloc).trans hl
    rw [← hℓ] at he hv hs
    exact ⟨by rw [hr, he], hv, hs⟩

/-! ## Both walks without links -/

theorem entry_tail {c : Str} (h : ValidName c) (s : Str) :
    (s ++ '/' :: c).reverse.head? ≠ some '/' ∧ ¬ ['.', '/'] <+: (s ++ '/' :: c).reverse := by
  obtain ⟨hc, hs, -, hd, -⟩ := h
  have hr : (s ++ '/' :: c).reverse = c.reverse ++ '/' :: s.reverse := by simp
  have hsl : '/' ∉ c.reverse := fun h => hs (List.mem_reverse.mp h)
  rw [hr]
  cases hcr : c.reverse with
  | nil => exact absurd (List.reverse_eq_nil_iff.mp hcr) hc
  | cons x w =>
    rw [hcr] at hsl
    refine ⟨fun h => ?_, fun h => ?_⟩
    · exact hsl (by simp [Option.some.inj h])
    · obtain ⟨hx, h⟩ := List.cons_prefix_cons.mp h
      cases w with
      | nil =>
        refine hd ?_
        rw [← List.reverse_reverse c, hcr, ← hx]
        rfl
      | cons y w =>
        have hy : '/' = y := (List.cons_prefix_cons.mp h).1
        exact hsl (hy ▸ List.mem_cons_of_mem x List.mem_cons_self)

theorem path_tail (R : RootDir) : R.path.reverse.head? ≠ some '/' ∧ ¬ ['.', '/'] <+: R.path.reverse := by
  obtain ⟨ℓ, hv, hne, -⟩ := R
  cases ℓ with
  | nil => exact absurd rfl hne
  | cons c ℓ => exact entry_tail (hv c (by simp)) (render ℓ)

theorem sanitize_root (R : RootDir) (hp : p = [] ∨ isAbs p = true) :
    ∃ q, pathSanitize (R.path ++ p) = R.path ++ q ∧ (q = [] ∨ isAbs q = true) := by
  obtain ⟨w, hw⟩ := R.path_head
  have habs : isAbs R.path = true := by rw [hw]; rfl
  obtain ⟨q, hq⟩ := sanitize_keeps habs (path_tail R).1 (path_tail R).2 p
  refine ⟨q, hq.symm, ?_⟩
  have hlead := (trims_sanitize (R.path ++ p)).lead (isAbs_path_append R p)
  rw [← hq, List.prefix_append_right_inj] at hlead
  cases q with
  | nil => exact Or.inl rfl
  | cons x q =>
    obtain ⟨u, rfl⟩ := hlead
    refine Or.inr ?_
    have hp := hp.resolve_left (by simp)
    exact hp

variable {fs : FileSystem} {re : Option (Str → Bool)} {fds : Int → Option Loc} {bufsiz : Nat} {atflags prflags : Word}
  {errno : Option Errno}

/-- A path below the root directory, when links are not followed: it is shortened by the second
walk, or only sanitised when there is none. -/
theorem finishBuf_unfollowed (hf : followSymlink atflags = false) (hbuf : pathMax ≤ bufsiz)
    (hp : p = [] ∨ isAbs p = true) (hnul : nul ∉ p) (hlen : (R.path ++ p).length < pathMax) {isAtrootfd : Bool}
    (hign : allowIgnore prflags = true → ignore re ((pathSanitize (R.path ++ p)).drop R.path.length) = false) :
    Settles (fun fuel => finishBuf (fs.host cwd fds) (some R.path) re fuel bufsiz atflags prflags errno isAtrootfd
      (R.path ++ p)) (.done (if allowWalkAlong prflags then pathOf (shorten R.loc (parse p)) else pathSanitize (R.path ++ p))) := by
  obtain ⟨hr, hv, hs⟩ := resolved_blank hp hnul hlen cwd
  have hT := trims_sanitize (R.path ++ p)
  have hle : (pathSanitize (R.path ++ p)).length < pathMax := Nat.lt_of_le_of_lt hT.part.length_le hlen
  have hwt : fs.walkTree (some R.path) atflags = DirTree.blank := if_neg (by rw [hf]; decide)
  rw [← hwt] at hr
  have h1 := walkBuf_settles (fun h => by rw [hf] at h; cases h) (fun h => by rw [hT.abs.trans (isAbs_path_append R p)] at h; cases h) R.noNul
    (hT.ne_nil (by simp [R.path_ne_nil])) hle (nul_not_mem_sanitize R hnul) hr fds bufsiz errno
  simp only [leaves, Place.ofLoc_final, strncpy_short hbuf hs] at h1
  have hlead : strleq (pathSanitize (R.path ++ p)) R.path = true := by
    obtain ⟨q, hq, -⟩ := sanitize_root R hp
    rw [strleq_iff R.path_short, hq]
    exact List.prefix_append R.path q
  have h0 : Settles (fun fuel => if followSymlink atflags then walkBuf (fs.host cwd fds) (some R.path) fuel bufsiz atflags
      errno (pathSanitize (R.path ++ p)) else .done (pathSanitize (R.path ++ p), errno))
      (.done (pathSanitize (R.path ++ p), errno)) := by
    simp only [hf, Bool.false_eq_true, if_false]
    exact Settles.const _
  refine finishBuf_settles h0 (if_neg fun h => ?_) (fun ha _ => hign ha) ?_
  · rw [hlead] at h
    cases h.2
  · by_cases hw : allowWalkAlong prflags = true
    · rw [if_pos hw, if_pos hw]
      exact ⟨errno, h1⟩
    · rw [if_neg hw, if_neg hw]

end

end Iamroot
