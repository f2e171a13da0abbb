import Iamroot.Idempotence

/-!
# What the symlink walk returns

The output of `__realpathat` is at every turn the text of a place without links on the
way to it, so what is returned is canonical. Two slashes at the start are kept where
they are found, in the path or in a text that takes the place of a component.
-/

namespace Iamroot

open FileTree

/-- Absolute, with no `.`, no `..`, no empty component and no slash at the end, unless it is the root. -/
def CanonicalText (s : Str) : Prop := isAbs s = true ∧ (s = ['/'] ∨ ∀ c ∈ (comps s).tail, ValidName c)

/-- Two slashes are asked for: by the path, or by a text that the walk puts in the place of a component. That is the text of a
link, behind the root directory where it is absolute, or the value of an attribute without its last byte, which may be just
one slash or nothing: what it stands before on the stack begins with the other ones. -/
def AsksTwo (h : Host) (env : Option Str) (errno : Option Errno) (atflags : Word) (path : Str) : Prop :=
  double path = true ∨ ∃ i s, stateAt h env errno atflags path i = some s ∧
    ((∃ t, Links h atflags s t ∧ double (seen env t) = true) ∨
      ∃ v, Redirects h atflags s v ∧ (double v.dropLast = true ∨ v.dropLast = ['/'] ∨ v.dropLast = []))

/-! ## The path of a location -/

section
variable {ℓ : Loc} {t : DirTree Str}

theorem comps_render (hv : ValidLoc ℓ) : comps (render ℓ) = [] :: ℓ.reverse := by
  induction ℓ with
  | nil => rfl
  | cons c ℓ ih =>
    obtain ⟨hc, hv⟩ := List.forall_mem_cons.mp hv
    rw [render_cons, comps_append, ih hv, comps_of_no_slash hc.2.1, List.reverse_cons, List.cons_append]

theorem canonical_pathOf (hv : ValidLoc ℓ) : CanonicalText (pathOf ℓ) := by
  refine ⟨isAbs_pathOf ℓ, ?_⟩
  unfold pathOf
  split
  · exact Or.inl rfl
  · right
    rw [comps_render hv]
    exact fun c hc => hv c (List.mem_reverse.mp hc)

theorem clear_isLink (hc : t.Clear ℓ) (n : Nat) : t.isLink (ℓ.drop n) = false := by
  have hd : t.Clear (ℓ.drop n) := by
    rw [← List.take_append_drop n ℓ] at hc
    exact hc.of_append
  cases h : ℓ.drop n with
  | nil => rw [DirTree.isLink, t.root_dir]
  | cons m ℓ' =>
    rw [h] at hd
    exact hd.2.2

end

/-! ## Two slashes in the output -/

section
variable {h : Host} {env : Option Str} {errnoSave : Option Errno} {atflags : Word} {s s' : Scan} {out c p t v : Str}

def Two (out : Str) : Prop := out.take 2 = ['/', '/']

theorem two_of_prefix {out' : Str} (h : out' <+: out) (h2 : Two out') : Two out := by
  obtain ⟨w, rfl⟩ := h
  have hl : min 2 out'.length = 2 := by rw [← List.length_take, h2]; rfl
  rw [Two, List.take_append_of_le_length (by omega)]
  exact h2

theorem popName_isPrefix (out : Str) : popName out <+: out := by
  unfold popName
  dsimp only
  split
  · exact (List.dropLast_prefix _).trans (List.rdropWhile_prefix _ out)
  · exact List.rdropWhile_prefix _ out

theorem two_addName (hc : '/' ∉ c) (h2 : Two (addName out c)) : Two out := by
  unfold addName at h2
  match out with
  | [] =>
    rw [if_neg (by simp [needsSlash]), List.nil_append] at h2
    exact absurd (List.mem_of_mem_take (h2 ▸ List.mem_cons_self)) hc
  | [x] =>
    by_cases hx : x = '/'
    · subst hx
      rw [if_neg (by decide)] at h2
      have hc' : c.take 1 = ['/'] := (List.cons.inj h2).2
      exact absurd (List.mem_of_mem_take (hc' ▸ List.mem_singleton_self _)) hc
    · have h2 : (x :: _).take 2 = ['/', '/'] := h2
      exact absurd (List.cons.inj h2).1 hx
  | x :: y :: out => exact h2

/-- Where a turn that copies the component `c` leaves the output. -/
def Turn.Moves (out c : Str) (T : Turn Scan) : Prop :=
  ∀ s', T = .next s' ∨ T = .restart s' → s'.output = out ∨ s'.output = popName out ∨ s'.output = addName out c

theorem skipReadlink_moves (s : Scan) (c : Str) (l0 : Nat) (up : Bool) :
    (skipReadlink s (piece s.output c) l0 up).Moves s.output c := by
  intro s' hs
  unfold skipReadlink at hs
  split at hs
  · rcases hs with hs | hs
    · obtain rfl := Turn.next.inj hs
      exact Or.inr (Or.inl rfl)
    · cases hs
  · rcases hs with hs | hs
    · obtain rfl := Turn.next.inj hs
      dsimp only
      split
      · exact Or.inl rfl
      · exact Or.inr (Or.inr rfl)
    · cases hs

theorem moves_fail (e : Errno) (out c : Str) : (Turn.fail e).Moves out c := by
  rintro s' (hs | hs)
  · cases hs
  · cases hs

theorem moves_fault (out c : Str) : Turn.fault.Moves out c := by
  rintro s' (hs | hs)
  · cases hs
  · cases hs

theorem followLink_moves (s : Scan) (t c : Str) : (followLink env s t).Moves s.output c := by
  rcases followLink_cases env s t with hf | ⟨stack, p, hr⟩
  · exact hf s.errno ▸ moves_fault s.output c
  · rw [hr s.errno]
    rintro s' (hs | hs)
    · cases hs
    · obtain rfl := Turn.restart.inj hs
      exact Or.inl rfl

theorem readlinkTurn_moves (s : Scan) (c : Str) (l0 : Nat) (up : Bool) :
    (readlinkTurn h env errnoSave s (piece s.output c) l0 up).Moves s.output c := by
  unfold readlinkTurn
  split
  · split
    · exact moves_fail _ _ _
    split
    · split
      · exact skipReadlink_moves s c l0 up
      · exact moves_fail _ _ _
    split
    · exact moves_fail _ _ _
    · exact followLink_moves s _ c
  · split
    · exact skipReadlink_moves { s with errno := some .ENOENT } c l0 up
    split
    · exact moves_fail _ _ _
    · exact skipReadlink_moves { s with errno := errnoSave } c l0 up

theorem getxattrTurn_moves (s : Scan) (c : Str) (l0 : Nat) (up : Bool) :
    (getxattrTurn h env errnoSave s (piece s.output c) l0 up).Moves s.output c := by
  unfold getxattrTurn
  split
  · exact readlinkTurn_moves { s with errno := errnoSave } c l0 up
  · dsimp only
    split
    · exact moves_fail _ _ _
    split
    · exact readlinkTurn_moves s c l0 up
    split
    · exact moves_fault _ _
    · rintro s' (hs | hs)
      · cases hs
      · obtain rfl := Turn.restart.inj hs
        exact Or.inl rfl

theorem compTurn_moves (s : Scan) (c : Str) : (compTurn h env errnoSave atflags s c).Moves s.output c := by
  unfold compTurn
  split
  · rintro s' (hs | hs)
    · obtain rfl := Turn.next.inj hs
      exact Or.inr (Or.inr rfl)
    · cases hs
  split
  · exact skipReadlink_moves s c _ _
  · exact getxattrTurn_moves s c _ _

theorem turn_two (B : InBounds s) (hT : turn h env errnoSave atflags s = .next s' ∨ turn h env errnoSave atflags s = .restart s')
    (h2 : Two s'.output) : Two s.output ∨ double (unread s) = true := by
  rw [turn_eq h env errnoSave atflags B] at hT
  by_cases h0 : s.stack[s.p]? = some '/'
  · rw [if_pos h0] at hT
    rcases hT with hT | hT
    · obtain rfl := Turn.next.inj hT
      by_cases hd : s.stack[s.p + 1]? = some '/' ∧ s.stack[s.p + 1 + 1]? ≠ some '/'
      · right
        refine decide_eq_true ⟨?_, ?_⟩
        · rw [unread, List.take_add_one, List.take_one, List.head?_drop, h0, List.getElem?_drop, hd.1]
          rfl
        · rw [unread, List.getElem?_drop]
          exact hd.2
      · have h2 : Two (if s.stack[s.p + 1]? = some '/' ∧ s.stack[s.p + 1 + 1]? ≠ some '/' then ['/', '/'] else ['/']) := h2
        rw [if_neg hd] at h2
        cases h2
    · cases hT
  rw [if_neg h0] at hT
  by_cases hle : component s = [] ∧ s.checkDir = false
  · rw [if_pos hle] at hT
    rcases hT with hT | hT
    · cases hT
    · cases hT
  rw [if_neg hle] at hT
  by_cases hdot : component s = dot
  · rw [if_pos hdot] at hT
    rcases hT with hT | hT
    · obtain rfl := Turn.next.inj hT
      exact Or.inl h2
    · cases hT
  rw [if_neg hdot] at hT
  by_cases hov : Overlong s
  · rw [if_pos hov] at hT
    exact absurd hT (by simp)
  rw [if_neg hov] at hT
  left
  rcases compTurn_moves (copied s) (component s) s' hT with ho | ho | ho
  · exact ho ▸ h2
  · rw [ho] at h2
    exact two_of_prefix (popName_isPrefix _) h2
  · rw [ho] at h2
    exact two_addName (not_slash_mem_component s) h2

/-! ## Two slashes on the stack -/

theorem isAbs_of_double (hd : double t = true) : isAbs t = true := by
  have ht : t.take 2 = ['/', '/'] := (of_decide_eq_true hd).1
  cases t with
  | nil => cases ht
  | cons x t =>
    rw [isAbs, List.head?_cons, (List.cons.inj ht).1]
    rfl

theorem double_front {w : Str} (hd : double (t ++ w) = true) : double t = true ∨ t = ['/'] ∨ t = [] := by
  obtain ⟨htwo, hthree⟩ := of_decide_eq_true hd
  match t with
  | [] => exact Or.inr (Or.inr rfl)
  | [x] =>
    obtain rfl : x = '/' := (List.cons.inj htwo).1
    exact Or.inr (Or.inl rfl)
  | [x, y] => exact Or.inl (decide_eq_true ⟨htwo, nofun⟩)
  | x :: y :: z :: t => exact Or.inl (decide_eq_true ⟨htwo, hthree⟩)

theorem followLink_unread (hs : s.p ≤ s.stack.length) (hf : followLink env s t = .restart s') :
    ∃ w, unread s' = seen env t ++ w ∧ ((seen env t).getLast? = some '/' → isAbs w = false) := by
  obtain ⟨root, hroot⟩ : ∃ root, root =
    if isAbs t && inchroot env then (getrootdir env).take (strlen (getrootdir env)) else [] := ⟨_, rfl⟩
  have hseen : seen env t = root ++ t := by rw [hroot]; rfl
  unfold followLink at hf
  simp only [← hroot] at hf
  obtain ⟨stack, hstack⟩ : ∃ stack, stack =
    root ++ (t ++ s.stack.drop t.length).take t.length ++ (t ++ s.stack.drop t.length).drop (root.length + t.length) :=
    ⟨_, rfl⟩
  rw [← hstack] at hf
  split at hf
  · cases hf
  rename_i hroom
  have hst : stack = seen env t ++ (t ++ s.stack.drop t.length).drop (root.length + t.length) := by
    rw [hstack, List.take_left, hseen]
  have hsl : (seen env t).length = root.length + t.length := by rw [hseen, List.length_append]
  have hlen : s.p ≤ stack.length := by
    rw [hst]
    simp only [List.length_append, List.length_drop] at hroom ⊢
    omega
  obtain ⟨p, hp⟩ : ∃ p, p = if stack[root.length + t.length - 1]? = some '/'
    then s.p + slashLen (stack.drop s.p) else s.p := ⟨_, rfl⟩
  rw [← hp] at hf
  split at hf
  · cases hf
  have hple : p ≤ stack.length := by
    have hle : slashLen (stack.drop s.p) ≤ (stack.drop s.p).length := (List.takeWhile_prefix _).length_le
    rw [List.length_drop] at hle
    rw [hp]
    split
    · omega
    · exact hlen
  obtain rfl := Turn.restart.inj hf
  refine ⟨stack.drop p, ?_, fun hl => ?_⟩
  · have hpl : (stack.take (p - (root.length + t.length))).length = p - (root.length + t.length) := by
      rw [List.length_take]
      omega
    show (stack.take (p - (root.length + t.length)) ++ stack.take (root.length + t.length) ++ stack.drop p).drop
      (p - (root.length + t.length)) = _
    rw [List.append_assoc, List.drop_left' hpl, ← hsl, hst, List.take_left]
  · have hlast : stack[root.length + t.length - 1]? = some '/' := by
      have hne : 0 < (seen env t).length := List.length_pos_of_ne_nil (by
        intro he
        rw [he] at hl
        cases hl)
      rw [hst, ← hsl, List.getElem?_append_left (by omega), ← List.getLast?_eq_getElem?]
      exact hl
    rw [hp, if_pos hlast, ← List.drop_drop, drop_slashLen]
    exact not_isAbs_dropWhile _

theorem after_double (B : InBounds s) (ha : after h env errnoSave atflags s = some s') (hd : double (unread s') = true) :
    (∃ t, Links h atflags s t ∧ double (seen env t) = true) ∨
      ∃ v, Redirects h atflags s v ∧ (double v.dropLast = true ∨ v.dropLast = ['/'] ∨ v.dropLast = []) := by
  have hskip : ∀ x, isAbs (unread (skipped x)) = false := fun x => by
    rw [unread, skipped]
    dsimp only
    rw [← List.drop_drop, drop_slashLen]
    exact not_isAbs_dropWhile _
  have hnext : ∀ {x}, turn h env errnoSave atflags s ≠ .next x := fun ht => by
    rw [after_next ht] at ha
    rw [← Option.some.inj ha] at hd
    exact absurd (isAbs_of_double hd) (by simp [hskip])
  have hend : after h env errnoSave atflags s ≠ none := by
    rw [ha]
    exact Option.some_ne_none _
  rcases turn_cases B with A | ⟨x, ht, -⟩ | ht | ⟨e, ht⟩
  · rcases asks_cases B A with ⟨v, R⟩ | ⟨x, ht, -⟩ | ⟨e, ht⟩ | ⟨t, x, L, -, hx, hc, ht⟩
    · rcases turn_redirects B R with ⟨ht, -⟩ | ⟨x, ht, P, -⟩
      · exact absurd (by rw [after, ht]) hend
      · rw [after_restart ht] at ha
        obtain rfl := Option.some.inj ha
        obtain ⟨rest, hrest, -⟩ := P.unread
        exact Or.inr ⟨v, R, double_front (hrest ▸ hd)⟩
    · exact absurd ht hnext
    · exact absurd (by rw [after, ht]) hend
    · have X : x.p ≤ x.stack.length := by
        obtain ⟨e, rfl⟩ := hx
        have C := copied_inBounds B
        exact Nat.le_of_lt (Nat.lt_of_le_of_lt C.p_le (by rw [C.size]; exact Nat.lt_succ_self _))
      refine Or.inl ⟨t, L, ?_⟩
      cases hf : followLink env x t with
      | restart s₁ =>
        rw [after_restart (ht.trans hf)] at ha
        obtain rfl := Option.some.inj ha
        obtain ⟨w, hw, hlast⟩ := followLink_unread X hf
        have hne : seen env t ≠ [] := List.append_ne_nil_of_right_ne_nil _ L.ne_nil
        rw [← double_append hne hlast, ← hw]
        exact hd
      | next s₁ => exact absurd (ht.trans hf) hnext
      | leave | fail | fault => exact absurd (by rw [after, ht, hf]) hend
  · exact absurd ht hnext
  · exact absurd (by rw [after, ht]) hend
  · exact absurd (by rw [after, ht]) hend

variable {errno : Option Errno} {path : Str}

def Accounted (h : Host) (env : Option Str) (errno : Option Errno) (atflags : Word) (path : Str) (s : Scan) : Prop :=
  (Two s.output → AsksTwo h env errno atflags path) ∧ (double (unread s) = true → AsksTwo h env errno atflags path)

theorem after_accounted {i : Nat} (hs : stateAt h env errno atflags path i = some s)
    (hA : Accounted h env errno atflags path s) (ha : after h env errno atflags s = some s') :
    Accounted h env errno atflags path s' := by
  have B := stateAt_inBounds hs
  constructor
  · intro h2
    cases ht : turn h env errno atflags s with
    | next x =>
      rw [after_next ht] at ha
      obtain rfl := Option.some.inj ha
      exact (turn_two B (Or.inl ht) h2).elim hA.1 hA.2
    | restart x =>
      rw [after_restart ht] at ha
      obtain rfl := Option.some.inj ha
      exact (turn_two B (Or.inr ht) h2).elim hA.1 hA.2
    | leave | fail | fault =>
      rw [after, ht] at ha
      cases ha
  · exact fun hd => Or.inr ⟨i, s, hs, after_double B ha hd⟩

theorem initial_accounted (hne : path ≠ []) : Accounted h env errno atflags path (initial path errno) := by
  refine ⟨nofun, fun hd => Or.inl ?_⟩
  have hu : unread (initial path errno) = path ++ [nul] := by
    show (List.replicate (pathMax - path.length) nul ++ path ++ [nul]).drop (pathMax - path.length) = _
    rw [List.append_assoc, List.drop_left' (List.length_replicate ..)]
  rw [hu, double_append hne fun _ => by decide] at hd
  exact hd

theorem two_text {o : Place} (h : o.base = .two) : Two o.text := by
  have hpre : ∀ l : List Str, o.base.text <+: l.foldr (fun c out => addName out c) o.base.text := by
    intro l
    induction l with
    | nil => exact List.prefix_refl _
    | cons c l ih => exact ih.trans (List.prefix_append _ _)
  refine two_of_prefix (hpre _) ?_
  rw [h]
  rfl

end

/-! ## The result -/

/-- **What the walk returns is canonical**, and no prefix of it names a symbolic link. -/
theorem realpathat_canonical {fs : FileSystem} {env : Option Str} {atflags : Word} {cwd : Loc} {path r : Str}
    {errno : Option Errno} (fds : Int → Option Loc) (hf : followSymlink atflags = true) (hcwd : fs.entry cwd = some .dir)
    {fuel : Nat} (hr : realpathat (fs.host cwd fds) env errno fuel path atflags = .done r) :
    ∃ ℓ : Loc, CanonicalText (pathOf ℓ) ∧
      (r = pathOf ℓ ∨ r = '/' :: pathOf ℓ ∧ AsksTwo (fs.host cwd fds) env errno atflags path) ∧ r.length < pathMax ∧
      ∀ n t, fs.entry (ℓ.drop n) ≠ some (.link t) := by
  have hne : path ≠ [] := by
    rintro rfl
    cases hr
  obtain ⟨s, ⟨⟨o, hok, hcl, h1, h2, -⟩, htwo⟩, ha⟩ := realpathat_leaves
    (I := fun s => Stands (fs.walkTree env atflags) cwd s ∧ Accounted (fs.host cwd fds) env errno atflags path s)
    ⟨stands_initial hcwd path errno, initial_accounted hne⟩
    (fun _ _ _ hs h ha => ⟨after_stands fds hcwd (stateAt_inBounds hs) h.1 ha, after_accounted hs h.2 ha⟩) hr
  have hval : ValidLoc (o.loc cwd) := hok.valid_loc (fs.valid (by rw [hcwd]; exact Option.some_ne_none _))
  have htree : fs.walkTree env atflags = fs.seenTree env := if_pos hf
  rw [htree] at hcl
  refine ⟨o.loc cwd, canonical_pathOf hval, ?_, realpathat_short hr, fun n t ht => ?_⟩
  · have hfin := absolute_final fds hcwd hok h1 h2 ha
    unfold Place.final at hfin
    by_cases hb : o.base = .two
    · have hloc : o.loc cwd = o.names := by
        rw [Place.loc, if_neg (by rw [hb]; decide), List.append_nil]
      rw [if_pos hb] at hfin
      rw [hloc]
      exact Or.inr ⟨hfin, htwo.1 (by rw [h1]; exact two_text hb)⟩
    · rw [if_neg hb] at hfin
      exact Or.inl hfin
  · have hl := clear_isLink hcl n
    rw [FileSystem.isLink_seen, ← Bool.not_eq_true] at hl
    exact hl ((FileSystem.isLink_tree _).mpr ⟨t, ht⟩)

set_option maxRecDepth 20000 in
/-- A link is followed, and the path goes on with a component that is missing and one that cancels it. -/
theorem realpathat_canonical_link : ∃ ℓ : Loc, CanonicalText (pathOf ℓ) ∧
    ("/a".toList = pathOf ℓ ∨ "/a".toList = '/' :: pathOf ℓ ∧ AsksTwo (linkFs.host [] fun _ => none) none none 0 "/l/b/..".toList) ∧
      "/a".toList.length < pathMax ∧ ∀ n t, linkFs.entry (ℓ.drop n) ≠ some (.link t) := by
  have hr : realpathat (linkFs.host [] fun _ => none) none none 20 "/l/b/..".toList 0 = .done "/a".toList :=
    realpathat_text (by decide +kernel)
  exact realpathat_canonical (fun _ => none) (by decide) (by rfl) hr

def doubling : FileSystem :=
  { FileSystem.ofList [([['a']], .dir)] (by decide) with attr := fun ℓ => if ℓ = [['a']] then some "//x\x00".toList else none }

def absoluteLink : FileSystem := .ofList [([['l']], .link "/t".toList)] (by decide)

theorem entry_singleton {m ℓ : Loc} {e x : Entry} (h : FileSystem.entryOf [(m, e)] ℓ = some x) : x = .dir ∨ x = e := by
  cases ℓ with
  | nil => exact Or.inl (Option.some.inj h).symm
  | cons c ℓ =>
    have h : List.lookup (c :: ℓ) [(m, e)] = some x := h
    rw [List.lookup_cons] at h
    split at h
    · exact Or.inr (Option.some.inj h).symm
    · cases h

set_option maxRecDepth 20000 in
/-- An attribute asks for two slashes, where there are no links; and the root directory does, before the text of a link. -/
theorem realpathat_doubles :
    (realpathat (doubling.host [] fun _ => none) none none 20 "/a/b".toList 0 = .done "//x/b".toList ∧
      ∀ ℓ t, doubling.entry ℓ ≠ some (.link t)) ∧
    (realpathat (absoluteLink.host [] fun _ => none) (some "//r".toList) none 20 "/l".toList 0 = .done "//r/t".toList ∧
      ∀ ℓ t, absoluteLink.entry ℓ = some (.link t) → double t = false) := by
  refine ⟨⟨realpathat_text (by decide +kernel), fun ℓ t h => ?_⟩, realpathat_text (by decide +kernel), fun ℓ t h => ?_⟩
  · rcases entry_singleton h with h | h
    · cases h
    · cases h
  · rcases entry_singleton h with h | h
    · cases h
    · rw [Entry.link.inj h]
      decide

end Iamroot
