import Iamroot.Directory
import Iamroot.Idempotence
import Iamroot.TempName

/-!
# Files with temporary names

A name that is made lies in the directory of its template. What the library
builds for the name differs from what it has built for the template in the last
component only, and all that the call has changed is that a name is taken which
was free. So the walk comes to the directory as before, and to the name there.
-/

namespace Iamroot

open FileTree

/-! ## The last component of a path -/

def Front (d : Str) : Prop := d = [] ∨ d.getLast? = some '/'

theorem stripDotSlash_last : ∀ {d : Str}, Front d → ∃ pre e, Front e ∧ parse d = pre ++ parse e ∧ (∀ c ∈ pre, c = .dot) ∧
    (isAbs d = true → e = d) ∧ ∀ b : Str, '/' ∉ b → 2 ≤ b.length → stripDotSlash (d ++ b) = e ++ b
  | [], _ => by
    refine ⟨[], [], .inl rfl, rfl, nofun, fun _ => rfl, fun b hb _ => ?_⟩
    unfold stripDotSlash
    split
    · rename_i s he
      exact absurd (by rw [show b = _ from he]; simp) hb
    · rfl
  | [x], hd => by
    obtain rfl : x = '/' := Option.some.inj (hd.resolve_left (List.cons_ne_nil _ _))
    exact ⟨[], ['/'], .inr rfl, rfl, nofun, fun _ => rfl, fun b _ _ => rfl⟩
  | x :: y :: d, hd => by
    by_cases hxy : (x = '.' ∧ y = '/') ∧ d.head? ≠ some '/'
    · obtain ⟨⟨rfl, rfl⟩, hhead⟩ := hxy
      have hd' : Front d := by
        cases d with
        | nil => exact .inl rfl
        | cons z d => exact .inr (hd.resolve_left (List.cons_ne_nil _ _))
      obtain ⟨pre, e, he, hp, hpre, -, hstrip⟩ := stripDotSlash_last hd'
      refine ⟨.dot :: pre, e, he, ?_, ?_, fun h => (by cases h), fun b hb hlen => ?_⟩
      · rw [List.cons_append, ← hp]
        exact parse_append dot d
      · intro c hc
        rcases List.mem_cons.mp hc with rfl | hc
        · rfl
        · exact hpre c hc
      · have hlead : (d ++ b).head? ≠ some '/' := by
          cases d with
          | nil => exact fun h => hb (List.mem_of_head? h)
          | cons z d => exact hhead
        rw [List.cons_append, List.cons_append, stripDotSlash, if_pos, hstrip b hb hlen]
        refine ⟨?_, hlead⟩
        rw [List.length_append]
        omega
    · refine ⟨[], x :: y :: d, hd, rfl, nofun, fun _ => rfl, fun b hb _ => ?_⟩
      rw [List.cons_append, List.cons_append]
      unfold stripDotSlash
      split
      · rename_i s he
        injection he with hx he
        injection he with hy hs
        rw [if_neg, hx, hy, hs]
        intro hstrip
        refine hxy ⟨⟨hx, hy⟩, ?_⟩
        rw [← hs] at hstrip
        cases d with
        | nil => simp
        | cons z d => exact hstrip.2
      · rfl

theorem sanitize_last {d : Str} (hd : Front d) : ∃ pre e, Front e ∧ parse d = pre ++ parse e ∧ (∀ c ∈ pre, c = .dot) ∧
    (isAbs d = true → e = d) ∧ ∀ b : Str, '/' ∉ b → 2 ≤ b.length → pathSanitize (d ++ b) = e ++ b := by
  obtain ⟨pre, e, he, hp, hpre, habs, hstrip⟩ := stripDotSlash_last hd
  refine ⟨pre, e, he, hp, hpre, habs, fun b hb hlen => ?_⟩
  obtain ⟨x, y, w, hrev⟩ : ∃ x y w, b.reverse = x :: y :: w := by
    cases hr : b.reverse with
    | nil =>
      rw [List.reverse_eq_nil_iff.mp hr] at hlen
      cases hlen
    | cons x w =>
      cases w with
      | nil =>
        rw [← List.length_reverse, hr, List.length_singleton] at hlen
        omega
      | cons y w => exact ⟨x, y, w, rfl⟩
  have hx : x ≠ '/' := fun h => hb (List.mem_reverse.mp (by rw [hrev, h]; simp))
  have hy : y ≠ '/' := fun h => hb (List.mem_reverse.mp (by rw [hrev, h]; simp))
  have hall : (e ++ b).reverse = x :: y :: (w ++ e.reverse) := by rw [List.reverse_append, hrev]; rfl
  have hdot : stripSlashDot (e ++ b).reverse = (e ++ b).reverse := by
    rw [hall]
    unfold stripSlashDot
    split
    · rename_i h
      exact absurd (List.cons.inj (List.cons.inj h).2).1 hy
    · rfl
  have hslash : stripSlash (e ++ b).reverse = (e ++ b).reverse := by
    rw [hall]
    unfold stripSlash
    split
    · rename_i h
      exact absurd (List.cons.inj h).1 hx
    · rfl
  have hne : d ++ b ≠ [] ∧ (e ++ b).length ≠ 0 := by
    constructor
    · intro h
      rw [(List.append_eq_nil_iff.mp h).2] at hlen
      cases hlen
    · rw [List.length_append]
      omega
  rw [pathSanitize, if_neg hne.1]
  simp only [hstrip b hb hlen, hdot, List.reverse_reverse, hslash]
  rw [if_neg hne.2]

theorem parse_last {e : Str} (he : Front e) : ∃ cs, parse e = cs ++ [.empty] ∧ ∀ b, ValidName b → parse (e ++ b) = cs ++ [.name b] := by
  have hname : ∀ b, ValidName b → parse b = [.name b] := fun b hb => by rw [parse_of_no_slash hb.2.1, compOf_name hb]
  rcases he with rfl | he
  · exact ⟨[], rfl, hname⟩
  · obtain ⟨w, rfl⟩ := List.getLast?_eq_some_iff.mp he
    refine ⟨parse w, parse_concat_slash w, fun b hb => ?_⟩
    rw [List.append_assoc, List.singleton_append, parse_append, hname b hb]

theorem isAbs_last {d x : Str} (hd : Front d) (hx : '/' ∉ x) : isAbs (d ++ x) = isAbs d := by
  cases d with
  | nil =>
    cases x with
    | nil => rfl
    | cons c x =>
      rw [List.nil_append, isAbs, List.head?_cons, isAbs, List.head?_nil]
      exact beq_eq_false_iff_ne.mpr fun h => hx (by rw [Option.some.inj h]; exact List.mem_cons_self)
  | cons c d => rfl

/-! ## A name beside another one -/

section
variable {t t' : DirTree Str} {cwd D : Loc} {n k : Nat} {o : Place} {c : Comp Str} {cs : List (Comp Str)} {x y : Str}

theorem length_unparse_last (hlen : x.length = y.length) (cs : List (Comp Str)) :
    (unparse (cs ++ [.name x])).length = (unparse (cs ++ [.name y])).length := by
  have hjoin : ∀ l : List Str, (join (l ++ [x])).length = (join (l ++ [y])).length := by
    intro l
    induction l with
    | nil => exact hlen
    | cons a l ih =>
      rw [List.cons_append, List.cons_append, join_cons _ (by simp), join_cons _ (by simp)]
      simp only [List.length_append, List.length_cons, ih]
  have hmap : ∀ z : Str, (cs ++ [Comp.name z]).map compText = cs.map compText ++ [z] := fun z => List.map_append
  rw [unparse, unparse, hmap, hmap]
  exact hjoin _

theorem length_addName_name (hlen : x.length = y.length) (o : Place) : (addName o.text x).length = (addName o.text y).length := by
  rw [Place.length_addName, Place.length_addName, hlen]

theorem advance_step_here (hc : c = .empty ∨ c = .dot) (hs : (addName o.text (compText c)).length < pathMax) (hcs : cs ≠ []) :
    advance t cwd n o (c :: cs) = advance t cwd n o cs := by
  have he : cs.isEmpty = false := by simpa using hcs
  rw [advance_eq]
  rcases hc with rfl | rfl <;> rw [advanceWith, if_neg (Nat.not_le.mpr hs)] <;>
    simp only [he, Bool.false_and, Bool.false_eq_true, if_false]

theorem advance_step_up (hs : (addName o.text dotdot).length < pathMax) (hf : t.isFile (o.loc cwd) = false) :
    advance t cwd n o (.up :: cs) = advance t cwd n o.up cs := by
  have hs' : ¬ pathMax ≤ (addName o.text (compText .up)).length := Nat.not_le.mpr hs
  rw [advance_eq, advanceWith, if_neg hs']
  simp only [hf, Bool.false_eq_true, if_false]

theorem advance_step_link {m : Str} {absolute : Bool} {target : List (Comp Str)} (hs : (addName o.text m).length < pathMax)
    (hm : t.node (m :: o.loc cwd) = some (.link absolute target)) (hu : (unparse (target ++ cs)).length < pathMax) :
    advance t cwd (n + 1) o (.name m :: cs) = advance t cwd n (o.start (unparse target)) (target ++ cs) := by
  have hs' : ¬ pathMax ≤ (addName o.text (compText (.name m))).length := Nat.not_le.mpr hs
  have hf : t.isFile (o.loc cwd) = false := DirTree.isFile_parent (by rw [hm]; exact Option.some_ne_none _)
  rw [advance_eq, advanceWith, if_neg hs']
  simp only [hf, hm, Bool.false_eq_true, if_false, if_neg (Nat.not_le.mpr hu)]
  rfl

theorem endFits_push (o : Place) (z : Str) :
    (o.push z).endFits cwd = true ↔ o.base ≠ .cwd ∨ (render (o.loc cwd)).length + z.length + 2 < pathMax := by
  have hpath : (pathOf ((o.push z).loc cwd)).length = (render (o.loc cwd)).length + z.length + 1 := by
    rw [Place.loc_push, pathOf, if_neg (List.cons_ne_nil _ _), render_cons, List.length_append, List.length_cons]
    omega
  rw [Place.endFits, hpath, Bool.or_eq_true, decide_eq_true_eq, decide_eq_true_eq]
  exact Iff.rfl

/-- The name at the end: what is there makes no difference, if it is no link. -/
theorem advance_rename_last (hf : t.isFile (o.loc cwd) = false) (hf' : t'.isFile (o.loc cwd) = false)
    (hx : t.isLink (x :: o.loc cwd) = false) (hy : t'.isLink (y :: o.loc cwd) = false) (hlen : x.length = y.length)
    (h : (advance t cwd n o [.name x]).isSome = true) : (advance t' cwd n o [.name y]).isSome = true := by
  obtain ⟨r, hr⟩ := Option.isSome_iff_exists.mp h
  have hs : (addName o.text x).length < pathMax := advance_short hr
  rw [advance_push hs hf hx, advance_nil] at h
  rw [advance_push (length_addName_name hlen o ▸ hs) hf' hy, advance_nil]
  have hfit : (o.push y).endFits cwd = true := by
    rw [endFits_push, ← hlen, ← endFits_push]
    by_contra hno
    rw [if_neg hno] at h
    cases h
  rw [if_pos hfit]
  rfl

theorem isLink_of_go {m : Str} {ℓ ℓ' : Loc} (hm : t.move (hostRules true) ℓ (.name m) cs = .go ℓ') :
    t.isLink (m :: ℓ) = false := by
  cases hn : t.node (m :: ℓ) with
  | none => rw [DirTree.isLink, hn]
  | some e =>
    cases e with
    | link absolute target =>
      rw [DirTree.move] at hm
      simp [hn, hostRules] at hm
    | dir => rw [DirTree.isLink, hn]
    | file => rw [DirTree.isLink, hn]

/-- A walk that comes to a directory, and to a name in it, comes to another name there as well, where that is no link
and has the length of the first one, and where there is more than there was. -/
theorem advance_rename (ht : Written t) (hg : t.Grows t') (hD : t.node D = some .dir) (hx : t.isLink (x :: D) = false)
    (hy : t'.isLink (y :: D) = false) (hlen : x.length = y.length) {n : Nat} {ℓ : Loc} {cs : List (Comp Str)}
    (hℓ : t.node ℓ ≠ none) (hw : t.walk (hostRules true) n ℓ cs = .ok (D, k)) (hl : o.loc cwd = ℓ)
    (h : (advance t cwd n o (cs ++ [.name x])).isSome = true) : (advance t' cwd n o (cs ++ [.name y])).isSome = true := by
  have hv : t.node (D, k).1 ≠ none := by
    rw [hD]
    exact Option.some_ne_none _
  have hne : ∀ (cs : List (Comp Str)) (z : Str), cs ++ [Comp.name z] ≠ [] := fun cs z => by simp
  induction n, ℓ, cs using DirTree.walk_induct t (hostRules true) generalizing o with
  | nil n ℓ =>
    rw [DirTree.walk_nil] at hw
    obtain rfl : ℓ = D := congrArg Prod.fst (Except.ok.inj hw)
    subst hl
    have hf : t.isFile (o.loc cwd) = false := by rw [DirTree.isFile, hD]
    exact advance_rename_last hf ((hg.isFile hℓ).trans hf) hx hy hlen h
  | stop n ℓ c cs e hm =>
    rw [DirTree.walk_stop hm] at hw
    cases hw
  | go n ℓ c cs ℓ' hm ih =>
    have hw' := hw
    rw [DirTree.walk_go hm] at hw'
    have hℓ' := DirTree.move_there rfl hv hℓ hw hm
    subst hl
    obtain ⟨r, hr⟩ := Option.isSome_iff_exists.mp h
    have hs : (addName o.text (compText c)).length < pathMax := advance_short hr
    obtain ⟨hc, rfl⟩ | ⟨rfl, rfl⟩ | ⟨m, rfl, rfl⟩ := DirTree.move_go hm
    · rw [List.cons_append, advance_step_here hc hs (hne cs _)] at h ⊢
      exact ih hℓ hw' rfl h
    · have hf : t.isFile (o.loc cwd) = false := by
        by_contra hf
        rw [DirTree.move, if_pos (by simpa using hf)] at hm
        cases hm
      have hup : (hostRules true).parent (o.loc cwd) = o.up.loc cwd := by
        rw [Place.loc_up]
        cases o.loc cwd <;> rfl
      rw [hup] at hw' hℓ'
      rw [List.cons_append, advance_step_up hs hf] at h
      rw [List.cons_append, advance_step_up hs ((hg.isFile hℓ).trans hf)]
      exact ih (hup ▸ hℓ') (hup.symm ▸ hw') hup.symm h
    · have hf : t.isFile (o.loc cwd) = false := DirTree.isFile_parent hℓ'
      have hk : t.isLink (m :: o.loc cwd) = false := isLink_of_go hm
      have hk' : t'.isLink (m :: o.loc cwd) = false := by
        rw [DirTree.isLink, hg _ hℓ']
        exact hk
      have hs : (addName o.text m).length < pathMax := hs
      rw [List.cons_append, advance_push hs hf hk] at h
      rw [List.cons_append, advance_push hs ((hg.isFile hℓ).trans hf) hk']
      exact ih hℓ' hw' rfl h
  | loop ℓ c cs ℓ' target hm =>
    rw [DirTree.walk_loop hm] at hw
    cases hw
  | expand n ℓ c cs ℓ' target hm ih =>
    have hℓ' := DirTree.expand_there (r := hostRules true) (by rw [show (hostRules true).top = [] from rfl, t.root_dir]; exact Option.some_ne_none _) hℓ hm
    rw [DirTree.walk_expand hm] at hw
    subst hl
    obtain ⟨m, absolute, rfl, hn, -, rfl⟩ := DirTree.move_expand hm
    obtain ⟨s, -, -, rfl, rfl⟩ := ht _ _ _ hn
    obtain ⟨r, hr⟩ := Option.isSome_iff_exists.mp h
    have hs : (addName o.text m).length < pathMax := advance_short hr
    have hlink := advance_name hr
    rw [if_neg (by rw [DirTree.isFile_parent (by rw [hn]; exact Option.some_ne_none _)]; exact Bool.false_ne_true), hn] at hlink
    have hu : (unparse (parse s ++ (cs ++ [.name x]))).length < pathMax := hlink.1
    have hn' : t'.node (m :: o.loc cwd) = some (.link (isAbs s) (parse s)) :=
      (hg _ (by rw [hn]; exact Option.some_ne_none _)).trans hn
    have hu' : (unparse (parse s ++ (cs ++ [.name y]))).length < pathMax := by
      rw [← List.append_assoc, ← length_unparse_last hlen, List.append_assoc]
      exact hu
    rw [List.cons_append, advance_step_link hs hn hu, ← List.append_assoc] at h
    rw [List.cons_append, advance_step_link hs hn' hu', ← List.append_assoc]
    refine ih hℓ' hw ?_ h
    rw [Place.loc_start, unparse_parse]
    rfl

end

/-! ## A template in a directory -/

section
variable (fs : FileSystem) (env : Option Str) (re : Option (Str → Bool)) (cwd : Loc)

/-- What stands before the last component leads to the directory `D`, over links as the library reads them. -/
structure Leading (d : Str) (D : Loc) : Prop where
  noAttr : fs.NoAttr
  root : nul ∉ getrootdir env
  noDouble : NoDouble (fs.seenTree env)
  front : Front d
  single : double d = false
  base : isAbs d = false → fs.entry cwd = some .dir ∧ (pathOf cwd).length < pathMax
  walk : ∃ k, (fs.seenTree env).walk (hostRules true) (symloopMax - 1) (if isAbs d then [] else cwd) (parse d) = .ok (D, k)
  isDir : fs.entry D = some .dir

/-- The path that is put in the buffer for `p` ends with `x` behind `d`, and neither it nor where it leads is left to the host. -/
structure Called (p d x : Str) (D : Loc) : Prop where
  text : textOf env p = d ++ x
  noNul : nul ∉ d ++ x
  ordinary : Ordinary re 0 p
  kept : strleq (pathOf (x :: D)) (rootOf env) = true → ignore re ((pathOf (x :: D)).drop (strlen (rootOf env))) = false

/-- The strings that are built for the path fit, and its last component is no link. -/
structure PlainLast (d x : Str) (D : Loc) : Prop where
  short : (d ++ x).length < pathMax
  fits : (resolved (fs.seenTree env) cwd (pathSanitize (d ++ x))).isSome = true
  noLink : fs.tree.isLink (x :: D) = false

end

section
variable {fs fs' : FileSystem} {env : Option Str} {re : Option (Str → Bool)} {cwd D : Loc} {fds : Int → Option Loc}
  {errno : Option Errno} {p p' d x y : Str}

theorem Leading.start (h : Leading fs env cwd d D) : ∃ cs k o, o.base ≠ .two ∧ o.Good (fs.seenTree env) cwd ∧
    (fs.seenTree env).node (o.loc cwd) ≠ none ∧
    (fs.seenTree env).walk (hostRules true) (symloopMax - 1) (o.loc cwd) cs = .ok (D, k) ∧
    ∀ x, ValidName x → 2 ≤ x.length → parse (pathSanitize (d ++ x)) = cs ++ [.name x] ∧
      ∀ t, resolved t cwd (pathSanitize (d ++ x)) = advance t cwd (symloopMax - 1) o (cs ++ [.name x]) := by
  have hnode : ∀ {ℓ}, fs.entry ℓ = some .dir → (fs.seenTree env).node ℓ ≠ none := fun he => by
    rw [FileSystem.node_seen, he]
    exact Option.some_ne_none _
  have hdir : (fs.seenTree env).node D ≠ none := hnode h.isDir
  obtain ⟨pre, e, he, hp, hpre, habs, hstrip⟩ := sanitize_last h.front
  obtain ⟨cs, hcs, hlast⟩ := parse_last he
  obtain ⟨k, hw⟩ := h.walk
  rw [hp] at hw
  have hw := DirTree.walk_here (fun c hc => Or.inr (hpre c hc)) hw
  rw [hcs] at hw
  obtain ⟨o, ho, hbase, hgood, hstart⟩ : ∃ o : Place, o.loc cwd = (if isAbs d then [] else cwd) ∧ o.base ≠ .two ∧
      o.Good (fs.seenTree env) cwd ∧ ∀ x, ValidName x → 2 ≤ x.length → Place.origin.start (e ++ x) = o := by
    cases hd : isAbs d with
    | true =>
      have hvalid : ValidLoc [] := fun c hc => absurd hc List.not_mem_nil
      refine ⟨.ofLoc [], rfl, by decide, ⟨Place.ofLoc_ok hvalid, trivial, by decide⟩, fun x hx _ => ?_⟩
      obtain rfl := habs hd
      have hne : e ≠ [] := by
        rintro rfl
        cases hd
      have hrel : isAbs x = false := isAbs_last (.inl rfl) hx.2.1
      exact start_abs ((isAbs_last he hx.2.1).trans hd) ((double_append hne fun _ => hrel).trans h.single) _
    | false =>
      have hvalid : ValidLoc Place.origin.names := fun c hc => absurd hc List.not_mem_nil
      refine ⟨.origin, rfl, by decide, ⟨⟨hvalid, fun h => absurd rfl h⟩, ?_, by decide⟩, fun x hx hlen => ?_⟩
      · exact (FileSystem.clear_seen env).mpr (FileSystem.clear_of_dir (h.base hd).1)
      · refine Place.start_of_not_abs ?_
        rw [← hstrip x hx.2.1 hlen, (trims_sanitize (d ++ x)).abs, isAbs_last h.front hx.2.1, hd]
  have hloc : (fs.seenTree env).node (o.loc cwd) ≠ none := by
    rw [ho]
    cases hd : isAbs d with
    | true => exact hnode fs.root_dir
    | false => exact hnode (h.base hd).1
  rw [← ho] at hw
  obtain ⟨u, hu, hwalk, hend⟩ := DirTree.walk_split (r := hostRules true) rfl rfl (hnode fs.root_dir) hdir hloc hw
  have hend : (fs.seenTree env).walk (hostRules true) u.2 u.1 ([.empty] ++ []) = .ok (D, k) := hend
  have hend := DirTree.walk_here (fun c hc => Or.inl (List.mem_singleton.mp hc)) hend
  rw [DirTree.walk_nil] at hend
  rw [show u = (D, k) from Except.ok.inj hend] at hwalk
  refine ⟨cs, k, o, hbase, hgood, hloc, hwalk, fun x hx hlen => ?_⟩
  rw [hstrip x hx.2.1 hlen]
  exact ⟨hlast x hx, fun t => by rw [resolved, hstart x hx hlen, hlast x hx]⟩

/-- The path is resolved to that of its last component in the directory. -/
theorem Leading.settles (h : Leading fs env cwd d D) (hc : Called env re p d x D) (hp : PlainLast fs env cwd d x D) (hx : ValidName x)
    (hlen : 2 ≤ x.length) (fds : Int → Option Loc) (errno : Option Errno) :
    Settles (fun fuel => pathResolution (fs.host cwd fds) env re fuel pathMax 0 errno atFdcwd p) (.done (pathOf (x :: D))) := by
  have ht : Written (fs.seenTree env) := FileSystem.written_seen h.root
  have hD : (fs.seenTree env).node D = some .dir := by
    rw [FileSystem.node_seen, h.isDir]
    rfl
  obtain ⟨cs, k, o, hbase, hgood, hloc, hw, hlast⟩ := h.start
  obtain ⟨hparse, hres⟩ := hlast x hx hlen
  have hnul : nul ∉ pathSanitize (d ++ x) := fun hn => hc.noNul ((trims_sanitize (d ++ x)).part.subset hn)
  obtain ⟨r, hr⟩ := Option.isSome_iff_exists.mp hp.fits
  have hadv := (hres _).symm.trans hr
  obtain ⟨o', rfl, hend⟩ : ∃ o', r = .ok o' ∧ o'.loc cwd = x :: D := by
    have hwalk := walk_of_advance ht _ _ _ hadv
    have hmove : (fs.seenTree env).move tolerant D (.name x) [] = .go (x :: D) := by
      have hlink := (FileSystem.isLink_seen env (x :: D)).trans hp.noLink
      rw [move_name_tolerant, DirTree.isFile, hD]
      unfold DirTree.isLink at hlink
      split at hlink
      · cases hlink
      · rename_i hno
        simp only [Bool.false_eq_true, if_false]
    have htop : tolerant.top = (hostRules true).top := rfl
    have hthen : (fs.seenTree env).walk tolerant (symloopMax - 1) (o.loc cwd) (cs ++ [.name x]) =
        (fs.seenTree env).walk tolerant k D [.name x] :=
      DirTree.walk_then rfl rfl htop rfl (hD ▸ Option.some_ne_none _) (List.cons_ne_nil _ _) hw
    rw [hthen, DirTree.walk_go hmove, DirTree.walk_nil] at hwalk
    cases r with
    | error e => cases hwalk
    | ok o' => exact ⟨o', rfl, (Except.ok.inj hwalk).symm⟩
  have hnames : NamesOk (cs ++ [.name x]) := hparse ▸ namesOk_parse hnul
  have hgood' := good_of_advance ht hadv hnames hgood
  have hfinal : o'.final cwd = pathOf (x :: D) := by
    rw [Place.final, if_neg (base_of_advance ht h.noDouble hadv hnames hbase), hend]
  have hne : pathSanitize (d ++ x) ≠ [] := by
    refine (trims_sanitize (d ++ x)).ne_nil fun he => ?_
    rw [(List.append_eq_nil_iff.mp he).2] at hlen
    cases hlen
  have hs : (pathSanitize (d ++ x)).length < pathMax := Nat.lt_of_le_of_lt (trims_sanitize (d ++ x)).part.length_le hp.short
  have hcwd : isAbs (pathSanitize (d ++ x)) = false → fs.entry cwd = some .dir ∧ (pathOf cwd).length < pathMax := by
    rw [(trims_sanitize (d ++ x)).abs, isAbs_last h.front hx.2.1]
    exact h.base
  have hattr : followSymlink 0 = true → fs.NoAttr := fun _ => h.noAttr
  have hcanon : Canonical fs (x :: D) := by
    refine ⟨?_, (FileSystem.clear_seen env).mp (hend ▸ hgood'.clear), ?_⟩
    · intro c hm
      rcases List.mem_cons.mp hm with rfl | hm
      · exact hx
      · exact fs.valid (by rw [h.isDir]; exact Option.some_ne_none _) c hm
    · obtain ⟨n, hn⟩ := realpathat_fs hattr hcwd h.root fds errno hne hs hnul hr
      rw [← hfinal]
      exact realpathat_short (hn 0)
  have h1 := walkBuf_settles hattr hcwd h.root hne hs hnul hr fds pathMax errno
  simp only [leaves, hfinal, strncpy_short (Nat.le_refl _) hcanon.short] at h1
  have h4 : Settles (fun fuel => walkBuf (fs.host cwd fds) env fuel pathMax 0 errno (pathOf (x :: D)))
      (.done (pathOf (x :: D), errno)) := walkBuf_canonical hattr h.root (Nat.le_refl pathMax) hcanon
  have hfinish : ∀ fuel, pathResolution (fs.host cwd fds) env re fuel pathMax 0 errno atFdcwd p =
      finishBuf (fs.host cwd fds) env re fuel pathMax 0 0 errno false (d ++ x) := by
    intro fuel
    have hshort : (textOf env p).length < pathMax := hc.text ▸ hp.short
    rw [pathResolution, pathResolution2_text hc.ordinary (Nat.le_refl pathMax), if_pos hshort, hc.text]
  refine Settles.congr hfinish ?_
  refine finishBuf_run h1 (if_neg fun hno => Bool.false_ne_true hno.2.1) (if_neg fun hno => ?_) ⟨errno, h4⟩
  rw [hc.kept hno.1] at hno
  exact Bool.false_ne_true hno.2.2

end

/-! ## The name that is made -/

/-- What the functions of the C library change at `ℓ`, where nothing was. `mktemp` makes a name, and no file. -/
inductive Makes (fs : FileSystem) (ℓ : Loc) : Maker → FileSystem → Prop
  | mkostemps (n : Nat) (h : fs.Room ℓ .file) : Makes fs ℓ (.mkostemps n) (.put h)
  | mkdtemp (h : fs.Room ℓ .dir) : Makes fs ℓ .mkdtemp (.put h)
  | mktemp (h : fs.entry ℓ = none) : Makes fs ℓ .mktemp fs

section
variable {fs fs' : FileSystem} {env : Option Str} {re : Option (Str → Bool)} {cwd D ℓ : Loc} {fds : Int → Option Loc}
  {errno : Option Errno} {m : Maker} {p d x y path : Str}

theorem Makes.spec (h : Makes fs ℓ m fs') : fs.entry ℓ = none ∧ fs'.attr = fs.attr ∧ (∀ k, k ≠ ℓ → fs'.entry k = fs.entry k) ∧
    ∀ t, fs'.entry ℓ ≠ some (.link t) := by
  have hput : ∀ {e : Entry} (hr : fs.Room ℓ e), (∀ t, e ≠ .link t) → fs.entry ℓ = none ∧ (FileSystem.put hr).attr = fs.attr ∧
      (∀ k, k ≠ ℓ → (FileSystem.put hr).entry k = fs.entry k) ∧ ∀ t, (FileSystem.put hr).entry ℓ ≠ some (.link t) := by
    intro e hr he
    refine ⟨hr.1, rfl, fun k hk => assign_ne _ _ hk, fun t ht => he t ?_⟩
    have hself : (FileSystem.put hr).entry ℓ = some e := assign_self _ _ _
    exact Option.some.inj (hself.symm.trans ht)
  cases h with
  | mkostemps n hr => exact hput hr nofun
  | mkdtemp hr => exact hput hr nofun
  | mktemp hn =>
    refine ⟨hn, rfl, fun _ _ => rfl, fun t ht => ?_⟩
    rw [hn] at ht
    cases ht

theorem Makes.entry_eq (h : Makes fs ℓ m fs') {k : Loc} (hk : fs.entry k ≠ none) : fs'.entry k = fs.entry k :=
  h.spec.2.2.1 k fun he => hk (he ▸ h.spec.1)

theorem Makes.isLink_eq (h : Makes fs ℓ m fs') : fs'.tree.isLink ℓ = false := by
  cases hl : fs'.tree.isLink ℓ with
  | false => rfl
  | true =>
    obtain ⟨t, ht⟩ := (FileSystem.isLink_tree ℓ).mp hl
    exact absurd ht (h.spec.2.2.2 t)

theorem Makes.grows (h : Makes fs ℓ m fs') (env : Option Str) : (fs.seenTree env).Grows (fs'.seenTree env) := by
  intro k hk
  rw [FileSystem.node_seen, FileSystem.node_seen, h.entry_eq fun hn => hk (by rw [FileSystem.node_seen, hn]; rfl)]

theorem Leading.made (h : Leading fs env cwd d D) (hm : Makes fs ℓ m fs') : Leading fs' env cwd d D where
  noAttr k := by rw [hm.spec.2.1, h.noAttr]
  root := h.root
  noDouble k s hs := by
    refine h.noDouble k s ?_
    by_cases hk : k = ℓ
    · subst hk
      obtain ⟨t, ht, -⟩ := FileSystem.node_seen_link hs
      exact absurd ht (hm.spec.2.2.2 t)
    · rwa [FileSystem.node_seen, hm.spec.2.2.1 k hk, ← FileSystem.node_seen] at hs
  front := h.front
  single := h.single
  base ha := by
    obtain ⟨hcwd, hs⟩ := h.base ha
    exact ⟨(hm.entry_eq (by rw [hcwd]; exact Option.some_ne_none _)).trans hcwd, hs⟩
  walk := by
    obtain ⟨k, hw⟩ := h.walk
    have hnode : ∀ {ℓ}, fs.entry ℓ = some .dir → (fs.seenTree env).node ℓ ≠ none := fun he => by
      rw [FileSystem.node_seen, he]
      exact Option.some_ne_none _
    refine ⟨k, DirTree.walk_grow (hm.grows env) rfl (hnode fs.root_dir) (hnode h.isDir) ?_ hw⟩
    cases ha : isAbs d with
    | true => exact hnode fs.root_dir
    | false => exact hnode (h.base ha).1
  isDir := (hm.entry_eq (by rw [h.isDir]; exact Option.some_ne_none _)).trans h.isDir

theorem PlainLast.made (hp : PlainLast fs env cwd d x D) (h : Leading fs env cwd d D) (hm : Makes fs (y :: D) m fs') (hx : ValidName x)
    (hy : ValidName y) (hlen : x.length = y.length) (h2 : 2 ≤ x.length) : PlainLast fs' env cwd d y D where
  short := by
    have hs := hp.short
    rw [List.length_append] at hs ⊢
    omega
  fits := by
    have ht : Written (fs.seenTree env) := FileSystem.written_seen h.root
    have hD : (fs.seenTree env).node D = some .dir := by
      rw [FileSystem.node_seen, h.isDir]
      rfl
    obtain ⟨cs, k, o, -, -, hloc, hw, hlast⟩ := h.start
    have hfits := hp.fits
    rw [(hlast x hx h2).2] at hfits
    rw [(hlast y hy (hlen ▸ h2)).2]
    exact advance_rename ht (hm.grows env) hD ((FileSystem.isLink_seen env _).trans hp.noLink)
      ((FileSystem.isLink_seen env _).trans hm.isLink_eq) hlen hloc hw rfl hfits
  noLink := hm.isLink_eq

end

/-! ## Templates that are written back -/

section
variable (fs : FileSystem) (env : Option Str) (re : Option (Str → Bool)) (cwd : Loc) (fds : Int → Option Loc)
  (errno : Option Errno) (m : Maker) (path : Str)

/-- The X's are in the last component of the template, which stands for itself in a directory, and the name with the
letters in it is free there. -/
structure NameFree (d : Str) (D : Loc) (r : Letters) (fs' : FileSystem) : Prop where
  inLast : m.suffixlen + 6 ≤ (basename path).length
  leading : Leading fs env cwd d D
  template : Called env re path d (basename path) D
  name : Called env re (named m.suffixlen r.text path) d (named m.suffixlen r.text (basename path)) D
  plain : PlainLast fs env cwd d (basename path) D
  makes : Makes fs (named m.suffixlen r.text (basename path) :: D) m fs'

/-- The calls of which the template is written back, and what they leave. A call that fails changes nothing: it is one of
`mkostemps`, or the C library was not asked. -/
inductive KeepsTemplate : Drawing → FileSystem → Prop
  | unresolved (o : Drawing) (e : Errno)
    (h : Settles (fun fuel => pathResolution (fs.host cwd fds) env re fuel pathMax 0 errno atFdcwd path) (.fail e)) :
    KeepsTemplate o fs
  | failed (o : Drawing) (buf : Str) (n : Nat) (hm : m = .mkostemps n)
    (h : Settles (fun fuel => pathResolution (fs.host cwd fds) env re fuel pathMax 0 errno atFdcwd path) (.done buf))
    (ho : accepts m.suffixlen buf = false ∨ ∃ e, o = .failed e) : KeepsTemplate o fs
  | made (fd : Nat) (r : Letters) (d : Str) (D : Loc) (fs' : FileSystem) (h : NameFree fs env re cwd m path d D r fs') :
    KeepsTemplate (.made fd r) fs'

end

section
variable {fs fs' : FileSystem} {env : Option Str} {re : Option (Str → Bool)} {cwd D : Loc} {fds : Int → Option Loc}
  {errno : Option Errno} {m : Maker} {o : Drawing} {d path : Str} {r : Letters}

theorem no_slash_basename (path : Str) : '/' ∉ basename path := by
  intro h
  have hno := List.mem_rtakeWhile_imp h
  simp at hno

theorem validName_of_long {x : Str} (hlen : 6 ≤ x.length) (hs : '/' ∉ x) (hn : nul ∉ x) : ValidName x := by
  refine ⟨?_, hs, hn, ?_, ?_⟩
  · rintro rfl
    cases hlen
  · rintro rfl
    exact absurd hlen (by decide)
  · rintro rfl
    exact absurd hlen (by decide)

theorem no_slash_named {x : Str} (hs : '/' ∉ x) (n : Nat) (r : Letters) : '/' ∉ named n r.text x := by
  intro h
  rcases List.mem_append.mp h with h | h
  · rcases List.mem_append.mp h with h | h
    · exact hs (List.mem_of_mem_take h)
    · exact absurd (r.plain _ h) (by decide)
  · exact hs (List.mem_of_mem_drop h)

/-- The template and the name are resolved, before and after the call, to paths that differ in the last component. -/
theorem NameFree.settles (h : NameFree fs env re cwd m path d D r fs') (ht : accepts m.suffixlen path = true)
    (fds : Int → Option Loc) (errno : Option Errno) :
    Settles (fun fuel => pathResolution (fs.host cwd fds) env re fuel pathMax 0 errno atFdcwd path)
        (.done (pathOf (basename path :: D))) ∧
      Settles (fun fuel => pathResolution (fs'.host cwd fds) env re fuel pathMax 0 errno atFdcwd (named m.suffixlen r.text path))
        (.done (pathOf (named m.suffixlen r.text (basename path) :: D))) := by
  have hlen : (named m.suffixlen r.text (basename path)).length = (basename path).length :=
    length_named (accepts_basename ht h.inLast) r.length_eq
  have hlong := h.inLast
  have hx : ValidName (basename path) :=
    validName_of_long (by omega) (no_slash_basename path) fun hn => h.template.noNul (List.mem_append_right _ hn)
  have hy : ValidName (named m.suffixlen r.text (basename path)) :=
    validName_of_long (by omega) (no_slash_named (no_slash_basename path) _ r) fun hn => h.name.noNul (List.mem_append_right _ hn)
  constructor
  · exact h.leading.settles h.template h.plain hx (by omega) fds errno
  · exact (h.leading.made h.makes).settles h.name (h.plain.made h.leading h.makes hx hy hlen.symm (by omega)) hy (by omega) fds errno

/-- **Templates are written back.** -/
theorem writesBack_of_keeps (ht : accepts m.suffixlen path = true) (hk : KeepsTemplate fs env re cwd fds errno m path o fs') :
    ∃ n, ∀ k, WritesBack (fs.host cwd fds) env re (n + k) errno (fs'.host cwd fds) m o path := by
  cases hk with
  | unresolved o e h =>
    obtain ⟨n, hn⟩ := h
    exact ⟨n, fun k => (writesBack_iff _ _ _ _ _ _ _ _ _ ht).mpr (Or.inl ⟨e, hn k⟩)⟩
  | failed o buf n hm h ho =>
    obtain ⟨n', hn⟩ := h
    refine ⟨n', fun k => (writesBack_iff _ _ _ _ _ _ _ _ _ ht).mpr (Or.inr ⟨buf, hn k, ?_⟩)⟩
    rcases ho with ho | ⟨e, rfl⟩
    · rw [ho]
      exact ⟨n, hm⟩
    · cases accepts m.suffixlen buf with
      | true => exact ⟨n, hm⟩
      | false => exact ⟨n, hm⟩
  | made fd r d D fs' h =>
    have hpath : ∀ b, pathOf (b :: D) = (render D ++ ['/']) ++ b := by
      intro b
      rw [pathOf, if_neg (List.cons_ne_nil _ _), render_cons, List.append_assoc]
      rfl
    have hbuf : accepts m.suffixlen (pathOf (basename path :: D)) = true := by
      rw [hpath, accepts_append h.inLast]
      exact accepts_basename ht h.inLast
    have hname : named m.suffixlen r.text (pathOf (basename path :: D)) = pathOf (named m.suffixlen r.text (basename path) :: D) := by
      rw [hpath, named_append h.inLast, hpath]
    obtain ⟨⟨n, hn⟩, n', hn'⟩ := h.settles ht fds errno
    refine ⟨n + n', fun k => (writesBack_iff _ _ _ _ _ _ _ _ _ ht).mpr ?_⟩
    refine keepsName_made (Nat.add_assoc n n' k ▸ hn (n' + k)) hbuf ⟨_, (hpath _).symm⟩ ?_
    rw [hname, written, if_pos h.inLast, Nat.add_comm n n', Nat.add_assoc]
    exact hn' (n + k)

end

/-! ## A template behind links -/

def abc123 : Letters := ⟨['a', 'b', 'c', '1', '2', '3'], rfl, by simp⟩

def tmpTemplate : Str := "/l/k/tXXXXXX.c".toList

theorem room_template : linked.Room ["tabc123.c".toList, ['e'], ['r']] .file := by decide

theorem nameFree_linked : NameFree linked (some rootR.path) none [] (.mkostemps 2) tmpTemplate "/r/l/k/".toList [['e'], ['r']] abc123
    (.put room_template) where
  inLast := by decide
  leading := ⟨fun _ => rfl, by decide, noDouble_seen rootR, .inr (by decide), by decide, nofun, ⟨37, by decide +kernel⟩, by decide⟩
  template := ⟨by decide, by decide, ⟨by decide, fun _ => by decide, fun _ => rfl⟩, fun _ => rfl⟩
  name := ⟨by decide, by decide, ⟨by decide, fun _ => by decide, fun _ => rfl⟩, fun _ => rfl⟩
  plain := ⟨by decide, by decide +kernel, by decide⟩
  makes := .mkostemps 2 room_template

theorem writesBack_linked : ∃ n, ∀ k, WritesBack (linked.host [] fun _ => none) (some rootR.path) none (n + k) none
    ((FileSystem.put room_template).host [] fun _ => none) (.mkostemps 2) (.made 3 abc123) tmpTemplate :=
  writesBack_of_keeps (by decide) (.made 3 abc123 _ _ _ nameFree_linked)

end Iamroot
