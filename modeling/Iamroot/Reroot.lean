import Iamroot.RealpathHost

/-!
# The walk of the library and the walk of a changed root

`__realpathat` walks from the root of the host and puts the root directory
before an absolute target. As long as `..` is not met at the root directory it
comes to where the kernel comes to in a process whose root that directory is. A
path that is already canonical is left as it is.
-/

namespace Iamroot

open FileTree

/-! ## Canonical paths -/

theorem ValidLoc.tail {c : Str} {ℓ : Loc} (h : ValidLoc (c :: ℓ)) : ValidLoc ℓ := fun d hd => h d (by simp [hd])

theorem parse_render {ℓ : Loc} (hv : ValidLoc ℓ) : parse (render ℓ) = .empty :: ℓ.reverse.map .name := by
  induction ℓ with
  | nil => rfl
  | cons c ℓ ih =>
    rw [render_cons, parse_append, ih hv.tail, parse_of_no_slash (hv c (by simp)).2.1, compOf_name (hv c (by simp))]
    simp

theorem parse_pathOf {ℓ : Loc} (hv : ValidLoc ℓ) :
    parse (pathOf ℓ) = .empty :: (if ℓ = [] then [.empty] else ℓ.reverse.map .name) := by
  unfold pathOf
  split
  · rfl
  · exact parse_render hv

theorem isAbs_render {ℓ : Loc} (h : ℓ ≠ []) : isAbs (render ℓ) = true := by
  obtain ⟨t, ht⟩ := render_head h
  rw [ht]
  rfl

theorem isAbs_pathOf (ℓ : Loc) : isAbs (pathOf ℓ) = true := by
  unfold pathOf
  split
  · rfl
  · exact isAbs_render ‹_›

theorem pathOf_ne_nil (ℓ : Loc) : pathOf ℓ ≠ [] := fun h => by
  have := isAbs_pathOf ℓ
  rw [h] at this
  cases this

theorem nul_not_mem_pathOf {ℓ : Loc} (hv : ValidLoc ℓ) : nul ∉ pathOf ℓ := by
  unfold pathOf
  split
  · decide
  · exact nul_not_mem_render hv

theorem take_render {ℓ : Loc} (hv : ValidLoc ℓ) (h : ℓ ≠ []) (s : Str) : (render ℓ ++ s).take 2 ≠ ['/', '/'] := by
  induction ℓ generalizing s with
  | nil => exact absurd rfl h
  | cons c ℓ ih =>
    by_cases hℓ : ℓ = []
    · subst hℓ
      obtain ⟨hc, hs, -⟩ := hv c (by simp)
      obtain ⟨x, c', rfl⟩ := List.exists_cons_of_ne_nil hc
      have hx : x ≠ '/' := fun e => hs (by simp [e])
      simp [render, hx]
    · rw [render_cons, List.append_assoc]
      exact ih hv.tail hℓ _

theorem double_of_lead {ℓ : Loc} (hv : ValidLoc ℓ) (h : ℓ ≠ []) {s s' : Str} (hs : s' <+: render ℓ ++ s) :
    double s' = false := by
  have ht := take_render hv h s
  obtain ⟨u, hu⟩ := hs
  rw [← hu] at ht
  match s' with
  | [] | [_] => simp [double]
  | x :: y :: w =>
    have hw : (x :: y :: w).take 2 ≠ ['/', '/'] := ht
    exact decide_eq_false fun hd => hw hd.1

theorem double_render {ℓ : Loc} (hv : ValidLoc ℓ) (h : ℓ ≠ []) (s : Str) : double (render ℓ ++ s) = false :=
  double_of_lead hv h List.prefix_rfl

theorem double_pathOf {ℓ : Loc} (hv : ValidLoc ℓ) : double (pathOf ℓ) = false := by
  unfold pathOf
  split
  · rfl
  · have := double_render hv ‹_› []
    rwa [List.append_nil] at this

/-! ## A canonical path is left as it is -/

section
variable {t : DirTree Str} {cwd : Loc} {n : Nat} {o : Place} {cs : List (Comp Str)}

theorem advance_push {m : Str} (hs : (addName o.text m).length < pathMax) (hf : t.isFile (o.loc cwd) = false)
    (hl : t.isLink (m :: o.loc cwd) = false) : advance t cwd n o (.name m :: cs) = advance t cwd n (o.push m) cs := by
  have hs' : ¬ pathMax ≤ (addName o.text (compText (.name m))).length := Nat.not_le.mpr hs
  rw [advance_eq, advanceWith, if_neg hs']
  simp only [hf, Bool.false_eq_true, if_false]
  unfold DirTree.isLink at hl
  split
  · rename_i hn
    simp [hn] at hl
  · rfl

theorem advance_empty (hs : (addName o.text []).length < pathMax) (hf : t.isFile (o.loc cwd) = false) :
    advance t cwd n o (.empty :: cs) = advance t cwd n o cs := by
  have hs' : ¬ pathMax ≤ (addName o.text (compText .empty)).length := Nat.not_le.mpr hs
  rw [advance_eq, advanceWith, if_neg hs']
  simp only [hf, Bool.and_false, Bool.false_eq_true, if_false]

theorem Place.length_text_le (o : Place) (ℓ : Loc) : o.text.length ≤ ({ o with names := ℓ ++ o.names } : Place).text.length := by
  induction ℓ with
  | nil => exact Nat.le_refl _
  | cons c ℓ ih =>
    have ht : ({ o with names := c :: ℓ ++ o.names } : Place).text =
        addName ({ o with names := ℓ ++ o.names } : Place).text c := rfl
    rw [ht, Place.length_addName]
    omega

theorem advance_names (cs : List (Comp Str)) {ns : List Str} (hc : t.Clear (ns.reverse ++ o.loc cwd))
    (hs : ({ o with names := ns.reverse ++ o.names } : Place).text.length < pathMax) :
    advance t cwd n o (ns.map .name ++ cs) = advance t cwd n { o with names := ns.reverse ++ o.names } cs := by
  induction ns generalizing o with
  | nil => rfl
  | cons m ns ih =>
    rw [List.reverse_cons, List.append_assoc, List.singleton_append] at hc hs
    obtain ⟨-, hf, hl⟩ := DirTree.Clear.of_append hc
    have hle := (o.push m).length_text_le ns.reverse
    rw [List.map_cons, List.cons_append, advance_push (Nat.lt_of_le_of_lt hle hs) hf hl, ih (o := o.push m) hc hs,
      List.reverse_cons, List.append_assoc]
    rfl

def Place.ofLoc (ℓ : Loc) : Place := { base := .one, nup := 0, names := ℓ }

@[simp] theorem Place.ofLoc_base (ℓ : Loc) : (Place.ofLoc ℓ).base = .one := rfl

theorem Place.ofLoc_ok {ℓ : Loc} (hv : ValidLoc ℓ) : (Place.ofLoc ℓ).Ok := ⟨hv, fun _ => rfl⟩

theorem Place.ofLoc_final (ℓ cwd : Loc) : (Place.ofLoc ℓ).final cwd = pathOf ℓ := by
  simp [Place.ofLoc, Place.final, Place.loc]

theorem Place.ofLoc_text {ℓ : Loc} (hv : ValidLoc ℓ) : (Place.ofLoc ℓ).text = pathOf ℓ :=
  (Place.text_eq_final (Place.ofLoc_ok hv) (by simp [Place.ofLoc]) []).trans (Place.ofLoc_final ℓ [])

theorem start_pathOf {ℓ : Loc} (hv : ValidLoc ℓ) (o : Place) : o.start (pathOf ℓ) = .ofLoc [] := by
  rw [Place.start, if_pos (isAbs_pathOf ℓ), double_pathOf hv]
  rfl

theorem resolved_pathOf {ℓ : Loc} (hv : ValidLoc ℓ) (hc : t.Clear ℓ) (hs : (pathOf ℓ).length < pathMax) :
    resolved t cwd (pathOf ℓ) = some (.ok (.ofLoc ℓ)) := by
  have hroot : t.isFile ((Place.ofLoc []).loc cwd) = false := by
    have hl : (Place.ofLoc []).loc cwd = [] := rfl
    rw [hl, DirTree.isFile, t.root_dir]
  have hstep : ∀ cs, advance t cwd (symloopMax - 1) (.ofLoc []) (.empty :: cs) = advance t cwd (symloopMax - 1) (.ofLoc []) cs :=
    fun cs => advance_empty (by decide) hroot
  rw [resolved, start_pathOf hv, parse_pathOf hv, hstep]
  split
  · rename_i hℓ
    rw [hℓ, hstep, advance_nil]
    rfl
  · have hp : ({ Place.ofLoc [] with names := ℓ.reverse.reverse ++ (Place.ofLoc []).names } : Place) = .ofLoc ℓ := by
      rw [List.reverse_reverse]
      simp [Place.ofLoc]
    have hc' : t.Clear (ℓ.reverse.reverse ++ (Place.ofLoc []).loc cwd) := by
      have he : (Place.ofLoc []).loc cwd = [] := rfl
      rwa [he, List.reverse_reverse, List.append_nil]
    have hn := advance_names [] (n := symloopMax - 1) hc' (by rw [hp, Place.ofLoc_text hv]; exact hs)
    rw [List.append_nil, hp] at hn
    rw [hn, advance_nil]
    rfl

end

/-! ## What an absolute path leads to -/

section
variable {t : DirTree Str} {cwd : Loc} {n : Nat} {o : Place} {cs : List (Comp Str)}

theorem named_of_advance (ht : Written t) {o' : Place} (h : advance t cwd n o cs = some (.ok o')) (hcs : NamesOk cs)
    (ho : o.base ≠ .cwd) : o'.base ≠ .cwd := by
  refine advance_inv (I := fun o => o.base ≠ .cwd) ht (fun o ho _ => ?_) (fun o m ho _ _ _ _ => ho) (fun o _ s ho _ => ?_)
    h hcs ho
  · unfold Place.up
    split
    · rwa [if_neg ho]
    · exact ho
  · unfold Place.start
    split
    · split <;> nofun
    · exact ho

theorem start_abs {s : Str} (hs : isAbs s = true) (hd : double s = false) (o : Place) : o.start s = .ofLoc [] := by
  rw [Place.start, if_pos hs, hd]
  rfl

theorem Place.eq_ofLoc (hok : o.Ok) (hc : o.base ≠ .cwd) (h2 : o.base ≠ .two) : o = .ofLoc o.names := by
  have hn := hok.nup hc
  obtain ⟨b, u, ℓ⟩ := o
  cases b with
  | cwd => exact absurd rfl hc
  | one => rw [show u = 0 from hn]; rfl
  | two => exact absurd rfl h2

/-- An absolute path leads to a location without links on the way to it, whose path is short. -/
theorem resolved_abs (ht : Written t) (hnd : NoDouble t) {s : Str} (hs : isAbs s = true) (hd : double s = false)
    (hnul : nul ∉ s) (h : resolved t cwd s = some (.ok o)) :
    o = .ofLoc o.names ∧ ValidLoc o.names ∧ t.Clear o.names ∧ (pathOf o.names).length < pathMax := by
  rw [resolved, start_abs hs hd] at h
  have hcs := namesOk_parse hnul
  have hgood : o.Good t cwd := good_of_advance ht h hcs ⟨Place.ofLoc_ok (by simp [ValidLoc]), trivial, by decide⟩
  have he : o = .ofLoc o.names :=
    Place.eq_ofLoc hgood.ok (named_of_advance ht h hcs (by simp)) (base_of_advance ht hnd h hcs (by simp))
  have hl : o.loc cwd = o.names := by rw [he]; simp [Place.loc, Place.ofLoc]
  refine ⟨he, hgood.ok.valid, hl ▸ hgood.clear, ?_⟩
  have hshort := hgood.short
  rw [he, Place.ofLoc_text hgood.ok.valid] at hshort
  exact hshort

end

/-! ## Below the root directory -/

theorem move_empty {t : DirTree Str} {r : Rules Str} {ℓ : Loc} {cs : List (Comp Str)} (hf : t.isFile ℓ = false) :
    t.move r ℓ .empty cs = .go ℓ := by
  rw [DirTree.move, if_neg (by rw [hf]; decide)]

section
variable {t : DirTree Str} {r : Rules Str} {n : Nat} {ℓ : Loc} {cs : List (Comp Str)}

theorem walk_render (hv : ValidLoc ℓ) (hc : t.Clear ℓ) (hd : t.node ℓ = some .dir) :
    t.walk r n [] (parse (render ℓ) ++ cs) = t.walk r n ℓ cs := by
  have hroot : t.isFile [] = false := by rw [DirTree.isFile, t.root_dir]
  have hℓ : ℓ.reverse.reverse ++ [] = ℓ := by rw [List.reverse_reverse, List.append_nil]
  have hn : t.walk r n [] (ℓ.reverse.map .name ++ cs) = t.walk r n (ℓ.reverse.reverse ++ []) cs :=
    DirTree.walk_names (hℓ.symm ▸ hc) (Or.inr (by simp [hd]))
  rw [parse_render hv, List.cons_append, DirTree.walk_go (move_empty hroot), hn, hℓ]

theorem walk_render_append (hv : ValidLoc ℓ) (hc : t.Clear ℓ) (hd : t.node ℓ = some .dir) {s : Str}
    (hs : s = [] ∨ isAbs s = true) : t.walk r n [] (parse (render ℓ ++ s) ++ cs) = t.walk r n ℓ (parse s ++ cs) := by
  have hℓ : t.isFile ℓ = false := by rw [DirTree.isFile, hd]
  cases s with
  | nil =>
    have he : parse [] ++ cs = .empty :: cs := rfl
    rw [List.append_nil, walk_render hv hc hd, he, DirTree.walk_go (move_empty hℓ)]
  | cons x w =>
    have hx : x = '/' := by simpa [isAbs] using hs
    subst hx
    rw [parse_append, parse_slash, List.append_assoc, walk_render hv hc hd, List.cons_append,
      DirTree.walk_go (move_empty hℓ)]

end

namespace FileSystem

variable {fs : FileSystem}

theorem written_seen {env : Option Str} (h : nul ∉ getrootdir env) : Written (fs.seenTree env) := by
  intro ℓ absolute target hn
  obtain ⟨t, ht, ha, htg⟩ := node_seen_link hn
  obtain ⟨hne, hnul⟩ := fs.target_ok ht
  refine ⟨Iamroot.seen env t, by simp [Iamroot.seen, hne], ?_, ha, htg⟩
  unfold Iamroot.seen
  rw [List.mem_append, not_or]
  refine ⟨?_, hnul⟩
  split
  · exact fun hm => h (List.mem_of_mem_take hm)
  · simp

end FileSystem

section
variable {fs : FileSystem} (R : RootDir)

theorem seen_root (t : Str) : seen (some R.path) t = (if isAbs t then R.path else []) ++ t := by
  have hg : getrootdir (some R.path) = R.path := rfl
  have hi : inchroot (some R.path) = true := by rw [inchroot, hg, streq_false R.path_ne_slash]; rfl
  rw [seen, hi, hg, R.strlen_path, List.take_length, Bool.and_true]

theorem isAbs_seen (t : Str) : isAbs (seen (some R.path) t) = isAbs t := by
  rw [seen_root]
  split
  · obtain ⟨w, hw⟩ := R.path_head
    rw [hw, ‹isAbs t = true›]
    rfl
  · rfl

theorem noDouble_seen : NoDouble (fs.seenTree (some R.path)) := by
  intro ℓ s hn
  obtain ⟨t, -, -, hp⟩ := FileSystem.node_seen_link hn
  have hs : s = seen (some R.path) t := by rw [← unparse_parse s, hp, unparse_parse]
  rw [hs, seen_root]
  split
  · exact double_render R.valid R.ne_nil t
  · rename_i ha
    cases t with
    | nil => rfl
    | cons x w =>
      have hx : x ≠ '/' := by simpa [isAbs] using ha
      simp [double, hx]

variable {R} {r : Rules Str} {n : Nat} {ℓ ℓ' : Loc} {c : Comp Str} {cs : List (Comp Str)}

theorem move_seen (hf : r.follow = true) (hu : r.Unclamped ℓ (c :: cs))
    (h : fs.tree.move r ℓ c cs = .go ℓ') : (fs.seenTree (some R.path)).move tolerant ℓ c cs = .go ℓ' := by
  have hfile : (fs.seenTree (some R.path)).isFile ℓ = fs.tree.isFile ℓ := FileSystem.isFile_seen _ ℓ
  cases c with
  | empty | dot => simpa only [DirTree.move, hfile] using h
  | up =>
    rw [move_up_tolerant, hfile]
    simp only [DirTree.move, Rules.parent, if_neg (hu rfl)] at h
    exact h
  | name x =>
    rw [move_name_tolerant, hfile, FileSystem.node_seen]
    rw [DirTree.move, FileSystem.node_tree] at h
    cases he : fs.entry (x :: ℓ) with
    | none =>
      simp only [he, Option.map_none] at h ⊢
      split at h
      · cases h
      · split at h
        · rw [if_neg ‹_›]
          exact h
        · cases h
    | some e =>
      have hp : fs.tree.isFile ℓ = false := FileSystem.isFile_of_dir (fs.parent_dir (c := x) (by simp [he]))
      rw [if_neg (by rw [hp]; decide)]
      cases e with
      | dir | file => simpa only [he, Option.map_some, Entry.node, Entry.seen] using h
      | link t => simp only [he, Option.map_some, Entry.node, hf, Bool.true_or, if_true, reduceCtorEq] at h

/-- Where the kernel comes to in the changed root, the walk with the links led back below the
root directory comes to as well, when `..` is not met at the root directory. -/
theorem walk_seen (hR : fs.entry R.loc = some .dir) (hf : r.follow = true) (ht : r.top = R.loc)
    {v : Loc × Nat} (hu : fs.tree.Along r r.Unclamped n ℓ cs) (h : fs.tree.walk r n ℓ cs = .ok v) :
    (fs.seenTree (some R.path)).walk tolerant n ℓ cs = .ok v := by
  induction n, ℓ, cs using DirTree.walk_induct fs.tree r with
  | nil n ℓ =>
    rw [DirTree.walk_nil] at h ⊢
    exact h
  | stop n ℓ c cs e hm =>
    rw [DirTree.walk_stop hm] at h
    cases h
  | go n ℓ c cs ℓ' hm ih =>
    rw [DirTree.walk_go hm] at h
    rw [DirTree.walk_go (move_seen hf hu.head hm)]
    exact ih (hu.go hm) h
  | loop ℓ c cs ℓ' target hm =>
    rw [DirTree.walk_loop hm] at h
    cases h
  | expand n ℓ c cs ℓ' target hm ih =>
    rw [DirTree.walk_expand hm] at h
    have ih := ih (hu.expand hm) h
    obtain ⟨x, absolute, rfl, hn, -, rfl⟩ := DirTree.move_expand hm
    obtain ⟨e, he, hl⟩ := Option.map_eq_some_iff.mp hn
    cases e with
    | dir | file => cases hl
    | link t =>
      obtain ⟨rfl, rfl⟩ : isAbs t = absolute ∧ parse t = target := by simpa [Entry.node] using hl
      have hfile : (fs.seenTree (some R.path)).isFile ℓ = false :=
        (FileSystem.isFile_seen _ ℓ).trans (FileSystem.isFile_of_dir (fs.parent_dir (c := x) (by simp [he])))
      have hm' : (fs.seenTree (some R.path)).move tolerant ℓ (.name x) cs =
          .expand (if isAbs t then [] else ℓ) (parse (seen (some R.path) t)) := by
        rw [move_name_tolerant, hfile, FileSystem.node_seen, he]
        simp only [Option.map_some, Entry.seen, Entry.node, isAbs_seen, Bool.false_eq_true, if_false]
      rw [DirTree.walk_expand hm', seen_root]
      by_cases ha : isAbs t = true
      · rw [if_pos ha, ht] at ih
        rw [if_pos ha, if_pos ha]
        refine (walk_render_append R.valid ?_ ?_ (Or.inr ha)).trans ih
        · exact (FileSystem.clear_seen _).mpr (FileSystem.clear_of_dir hR)
        · rw [FileSystem.node_seen, hR]; rfl
      · rw [if_neg ha] at ih
        rw [if_neg ha, if_neg ha]
        exact ih

end

end Iamroot
