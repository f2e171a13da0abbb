import Iamroot.NextRealpath
import Iamroot.Inverse

/-!
# Resolving what has been resolved

Whatever the unread part of the stack is, the output of the walk stands for a
place that no link leads to: each name was asked about before it went there. The
walk of such a path gives it back, and a walk that fails leaves the buffer as it
is and fails again, so that a second call finds nothing to do where it puts the
path in the buffer as it came.
-/

namespace Iamroot

open FileTree Orbit

/-! ## A walk that is repeated -/

section
variable {h : Host} {env : Option Str} {e₁ e₂ : Option Errno} {atflags : Word} {s s' : Scan}

theorem popTurn_bare {ask ask' : Scan → Str → Nat → Bool → Turn Scan}
    (hask : ∀ {x x' : Scan}, x.bare = x'.bare → ∀ p l0 up, (ask x p l0 up).bare = (ask' x' p l0 up).bare)
    (hs : s.bare = s'.bare) : (popTurn ask s).bare = (popTurn ask' s').bare := by
  obtain ⟨e, rfl⟩ := bare_cases hs
  unfold popTurn
  dsimp only
  by_cases h0 : s.stack[s.p]? = some '/'
  · rw [if_pos h0, if_pos h0]
    rfl
  rw [if_neg h0, if_neg h0]
  obtain ⟨c, hc⟩ : ∃ c, c = (s.stack.drop s.p).takeWhile fun c => decide (c ≠ '/' ∧ c ≠ nul) := ⟨_, rfl⟩
  rw [← hc]
  by_cases h1 : c.length = 0 ∧ s.checkDir = false
  · rw [if_pos h1, if_pos h1]
    rfl
  rw [if_neg h1, if_neg h1]
  by_cases h2 : c = dot
  · rw [if_pos h2, if_pos h2]
    rfl
  rw [if_neg h2, if_neg h2]
  by_cases h3 : needsSlash s.output = true ∧ s.p = 0
  · rw [if_pos h3, if_pos h3]
  rw [if_neg h3, if_neg h3]
  obtain ⟨l, hl⟩ : ∃ l, l = if needsSlash s.output = true then c.length + 1 else c.length := ⟨_, rfl⟩
  rw [← hl]
  by_cases h4 : pathMax ≤ s.output.length + l
  · rw [if_pos h4, if_pos h4]
  rw [if_neg h4, if_neg h4]
  by_cases h5 : c = dotdot ∧ s.output.length ≤ 3 * s.nup
  · rw [if_pos h5, if_pos h5]
    rfl
  rw [if_neg h5, if_neg h5]
  apply hask
  rfl

theorem followLink_cases (env : Option Str) (s : Scan) (t : Str) : (∀ e, followLink env { s with errno := e } t = .fault) ∨
    ∃ stack p, ∀ e, followLink env { s with errno := e } t =
      .restart { s with stack := stack, p := p, cnt := s.cnt + 1, errno := e } := by
  obtain ⟨root, hroot⟩ : ∃ root, root =
    if isAbs t && inchroot env then (getrootdir env).take (strlen (getrootdir env)) else [] := ⟨_, rfl⟩
  unfold followLink
  simp only [← hroot]
  by_cases h0 : (t ++ s.stack.drop t.length).length ≤ root.length + t.length
  · exact Or.inl fun _ => if_pos h0
  simp only [if_neg h0]
  obtain ⟨stack, hstack⟩ : ∃ stack, stack =
    root ++ (t ++ s.stack.drop t.length).take t.length ++ (t ++ s.stack.drop t.length).drop (root.length + t.length) :=
    ⟨_, rfl⟩
  obtain ⟨p, hp⟩ : ∃ p, p = if stack[root.length + t.length - 1]? = some '/'
    then s.p + slashLen (stack.drop s.p) else s.p := ⟨_, rfl⟩
  simp only [← hstack, ← hp]
  by_cases h1 : p < root.length + t.length
  · exact Or.inl fun _ => if_pos h1
  · exact Or.inr ⟨_, _, fun _ => if_neg h1⟩

theorem followLink_bare (hs : s.bare = s'.bare) (t : Str) : (followLink env s t).bare = (followLink env s' t).bare := by
  obtain ⟨e, rfl⟩ := bare_cases hs
  rcases followLink_cases env s t with hf | ⟨stack, p, hr⟩
  · rw [hf e, hf s.errno]
  · rw [hr e, hr s.errno]
    rfl

theorem readlinkTurn_bare (hne : ∀ p, h.readlink p ≠ .ok []) (hs : s.bare = s'.bare) (p : Str) (l0 : Nat) (up : Bool) :
    (readlinkTurn h env e₁ s p l0 up).bare = (readlinkTurn h env e₂ s' p l0 up).bare := by
  obtain ⟨e, rfl⟩ := bare_cases hs
  unfold readlinkTurn
  dsimp only
  cases hr : readlink h (s.output ++ p) s.p with
  | error err =>
    dsimp only
    by_cases h0 : err = .ENOENT
    · rw [if_pos h0, if_pos h0]
    rw [if_neg h0, if_neg h0]
    by_cases h1 : err ≠ .EINVAL
    · rw [if_pos h1, if_pos h1]
    · rw [if_neg h1, if_neg h1]
      apply skipReadlink_bare
      rfl
  | ok t =>
    dsimp only
    by_cases h0 : t.length = s.p
    · rw [if_pos h0, if_pos h0]
    rw [if_neg h0, if_neg h0]
    have h1 : ¬ t.length = 0 := by
      intro h1
      unfold readlink at hr
      split at hr
      · cases hr
      · rename_i hp
        cases hx : h.readlink (s.output ++ p) with
        | error err =>
          rw [hx] at hr
          cases hr
        | ok w =>
          rw [hx] at hr
          have hw : w.take s.p = t := Except.ok.inj hr
          rw [← hw, List.length_take] at h1
          have h0 : w = [] := List.length_eq_zero_iff.mp (by omega)
          rw [h0] at hx
          exact hne _ hx
    rw [if_neg h1, if_neg h1]
    by_cases h2 : s.cnt + 1 = symloopMax
    · rw [if_pos h2, if_pos h2]
    · rw [if_neg h2, if_neg h2]
      apply followLink_bare
      rfl

theorem getxattrTurn_bare (hne : ∀ p, h.readlink p ≠ .ok []) (hs : s.bare = s'.bare) (p : Str) (l0 : Nat) (up : Bool) :
    (getxattrTurn h env e₁ s p l0 up).bare = (getxattrTurn h env e₂ s' p l0 up).bare := by
  obtain ⟨e, rfl⟩ := bare_cases hs
  unfold getxattrTurn
  dsimp only
  cases getxattr h (s.output ++ p) s.p with
  | error err =>
    apply readlinkTurn_bare hne
    rfl
  | ok v =>
    dsimp only
    by_cases h0 : v.length = s.p
    · rw [if_pos h0, if_pos h0]
    rw [if_neg h0, if_neg h0]
    by_cases h1 : v.length = 0
    · rw [if_pos h1, if_pos h1]
      apply readlinkTurn_bare hne
      rfl
    rw [if_neg h1, if_neg h1]
    by_cases h2 : s.p - v.length + 1 < v.length - 1
    · rw [if_pos h2, if_pos h2]
    · rw [if_neg h2, if_neg h2]
      rfl

theorem turn_bare (hne : ∀ p, h.readlink p ≠ .ok []) (hs : s.bare = s'.bare) :
    (turn h env e₁ atflags s).bare = (turn h env e₂ atflags s').bare := by
  rw [turn_pop, turn_pop]
  refine popTurn_bare (fun {x x'} hx p l0 up => ?_) hs
  obtain ⟨e, rfl⟩ := bare_cases hx
  by_cases h0 : up = true ∧ x.checkDir = false ∨ followSymlink atflags = false
  · rw [if_pos h0, if_pos h0]
    apply skipReadlink_bare
    rfl
  · rw [if_neg h0, if_neg h0]
    apply getxattrTurn_bare hne
    rfl

theorem loop_bare (hne : ∀ p, h.readlink p ≠ .ok []) (fuel : Nat) (hs : s.bare = s'.bare) :
    (loop h env e₁ atflags fuel s).bare = (loop h env e₂ atflags fuel s').bare := by
  induction fuel generalizing s s' with
  | zero => rfl
  | succ fuel ih =>
    have ht : (turn h env e₁ atflags s).bare = (turn h env e₂ atflags s').bare := turn_bare hne hs
    rw [loop, loop]
    cases h1 : turn h env e₁ atflags s with
    | next x =>
      rw [h1] at ht
      cases h2 : turn h env e₂ atflags s' with
      | next x' =>
        rw [h2] at ht
        exact ih (skipped_bare (Turn.next.inj ht))
      | _ =>
        rw [h2] at ht
        cases ht
    | restart x =>
      rw [h1] at ht
      cases h2 : turn h env e₂ atflags s' with
      | restart x' =>
        rw [h2] at ht
        exact ih (Turn.restart.inj ht)
      | _ =>
        rw [h2] at ht
        cases ht
    | leave x =>
      rw [h1] at ht
      cases h2 : turn h env e₂ atflags s' with
      | leave x' =>
        rw [h2] at ht
        exact congrArg Ret.done (Turn.leave.inj ht)
      | _ =>
        rw [h2] at ht
        cases ht
    | fail e =>
      rw [h1] at ht
      cases h2 : turn h env e₂ atflags s' with
      | fail e' =>
        rw [h2] at ht
        exact congrArg Ret.fail (Turn.fail.inj ht)
      | _ =>
        rw [h2] at ht
        cases ht
    | fault =>
      rw [h1] at ht
      cases h2 : turn h env e₂ atflags s' with
      | fault => rfl
      | _ =>
        rw [h2] at ht
        cases ht

theorem realpathat_bare (hne : ∀ p, h.readlink p ≠ .ok []) (fuel : Nat) (path : Str) :
    realpathat h env e₁ fuel path atflags = realpathat h env e₂ fuel path atflags := by
  have hl : (loop h env e₁ atflags fuel (initial path e₁)).bare = (loop h env e₂ atflags fuel (initial path e₂)).bare :=
    loop_bare hne fuel rfl
  unfold realpathat
  dsimp only
  by_cases hz : strnlen path (pathMax + 1) = 0
  · rw [if_pos hz, if_pos hz]
  rw [if_neg hz, if_neg hz]
  by_cases hp : pathMax ≤ strnlen path (pathMax + 1)
  · rw [if_pos hp, if_pos hp]
  rw [if_neg hp, if_neg hp]
  cases h1 : loop h env e₁ atflags fuel (initial path e₁) with
  | done s =>
    rw [h1] at hl
    cases h2 : loop h env e₂ atflags fuel (initial path e₂) with
    | done s' =>
      rw [h2] at hl
      exact absolute_bare (Ret.done.inj hl)
    | _ =>
      rw [h2] at hl
      cases hl
  | fail e =>
    rw [h1] at hl
    cases h2 : loop h env e₂ atflags fuel (initial path e₂) with
    | fail e' =>
      rw [h2] at hl
      exact congrArg Ret.fail (Ret.fail.inj hl)
    | _ =>
      rw [h2] at hl
      cases hl
  | fault =>
    rw [h1] at hl
    cases h2 : loop h env e₂ atflags fuel (initial path e₂) with
    | fault => rfl
    | _ =>
      rw [h2] at hl
      cases hl
  | unfinished =>
    rw [h1] at hl
    cases h2 : loop h env e₂ atflags fuel (initial path e₂) with
    | unfinished => rfl
    | _ =>
      rw [h2] at hl
      cases hl

end

/-! ## Where the output stands -/

/-- The output is that of a place without links on the way to it. -/
def Stands (t : DirTree Str) (cwd : Loc) (s : Scan) : Prop :=
  ∃ o : Place, o.Ok ∧ t.Clear (o.loc cwd) ∧ s.output = o.text ∧ s.nup = o.nup ∧ (s.checkDir = true → o.names ≠ [])

section
variable {h : Host} {fs : FileSystem} {env : Option Str} {errnoSave : Option Errno} {atflags : Word} {t : DirTree Str}
  {cwd : Loc} {s s' x : Scan} {o : Place} {c : Str}

theorem clear_tail {ℓ : Loc} (h : t.Clear ℓ) : t.Clear ℓ.tail := by
  cases ℓ with
  | nil => trivial
  | cons m ℓ => exact h.1

theorem Place.nup_up (h : o.names ≠ [] ∨ o.base ≠ .cwd) : o.up.nup = o.nup := by
  unfold Place.up
  split
  · rename_i hn
    rw [if_neg (h.resolve_left (· hn))]
  · rfl

theorem stands_root (b : Bool) (t : DirTree Str) (cwd : Loc) : ∃ o : Place, o.Ok ∧ t.Clear (o.loc cwd) ∧
    (if b then ['/', '/'] else ['/']) = o.text ∧ 0 = o.nup := by
  cases b with
  | false => exact ⟨.ofLoc [], Place.ofLoc_ok (by simp [ValidLoc]), trivial, rfl, rfl⟩
  | true => exact ⟨⟨.two, 0, []⟩, ⟨by simp [ValidLoc], fun _ => rfl⟩, trivial, rfl, rfl⟩

theorem skipReadlink_stands (hok : o.Ok) (hcl : t.Clear (o.loc cwd)) (h1 : x.output = o.text) (h2 : x.nup = o.nup)
    (hup : c = dotdot → o.names ≠ [] ∨ o.base ≠ .cwd) (hnm : c = [] → o.names ≠ [])
    (hname : c ≠ [] → c ≠ dotdot → ValidName c ∧ t.Clear (c :: o.loc cwd))
    (hT : skipReadlink x (piece x.output c) c.length (c = dotdot) = .next s') : Stands t cwd s' := by
  unfold skipReadlink at hT
  by_cases hd : c = dotdot
  · rw [if_pos (decide_eq_true hd)] at hT
    obtain rfl := Turn.next.inj hT
    refine ⟨o.up, hok.up, ?_, ?_, h2.trans (Place.nup_up (hup hd)).symm, nofun⟩
    · rw [Place.loc_up]
      exact clear_tail hcl
    · show popName x.output = o.up.text
      rw [h1]
      exact Place.popName_text hok (hup hd)
  rw [if_neg (by simpa using hd)] at hT
  obtain rfl := Turn.next.inj hT
  by_cases hc : c = []
  · refine ⟨o, hok, hcl, ?_, h2, fun _ => hnm hc⟩
    show (if c.length = 0 then x.output else x.output ++ piece x.output c) = o.text
    rw [if_pos (by rw [hc]; rfl), h1]
  · obtain ⟨hv, hcl'⟩ := hname hc hd
    refine ⟨o.push c, hok.push hv, hcl', ?_, h2, fun _ => by simp [Place.push]⟩
    show (if c.length = 0 then x.output else x.output ++ piece x.output c) = (o.push c).text
    rw [if_neg fun h0 => hc (List.length_eq_zero_iff.mp h0), ← addName_eq, Place.text_push, h1]

theorem skipReadlink_stands' (hok : o.Ok) (hcl : t.Clear (o.loc cwd)) (h1 : x.output = o.text) (h2 : x.nup = o.nup)
    (hup : c = dotdot → o.names ≠ [] ∨ o.base ≠ .cwd) (hnm : c = [] → o.names ≠ [])
    (hname : c ≠ [] → c ≠ dotdot → ValidName c ∧ t.Clear (c :: o.loc cwd))
    {T : Turn Scan} (hT : skipReadlink x (piece x.output c) c.length (c = dotdot) = T) (hs : T = .next s' ∨ T = .restart s') :
    Stands t cwd s' := by
  rcases hs with rfl | rfl
  · exact skipReadlink_stands hok hcl h1 h2 hup hnm hname hT
  · unfold skipReadlink at hT
    split at hT
    · cases hT
    · cases hT

theorem followLink_stands {txt : Str} (hs : Stands t cwd x) (hT : followLink env x txt = .restart s') : Stands t cwd s' := by
  obtain ⟨o, hok, hcl, h1, h2, h3⟩ := hs
  rcases followLink_cases env x txt with hf | ⟨stack, p, hr⟩
  · cases hT.symm.trans (hf x.errno)
  · obtain rfl := Turn.restart.inj (hT.symm.trans (hr x.errno))
    exact ⟨o, hok, hcl, h1, h2, h3⟩

theorem readlinkTurn_stands (fds : Int → Option Loc) (hA : Asked (fs.seenTree env) cwd (fs.entry cwd = some .dir) x o c)
    (h2 : x.nup = o.nup) (h3 : x.checkDir = true → o.names ≠ []) (hup : c = dotdot → o.names ≠ [] ∨ o.base ≠ .cwd)
    {T : Turn Scan} (hT : readlinkTurn (fs.host cwd fds) env errnoSave x (piece x.output c) c.length (c = dotdot) = T)
    (hs : T = .next s' ∨ T = .restart s') : Stands (fs.seenTree env) cwd s' := by
  by_cases hfile : fs.tree.isFile (o.loc cwd) = true
  · rw [FileSystem.readlinkTurn_file fds hA hfile] at hT
    subst hT
    rcases hs with hs | hs
    · cases hs
    · cases hs
  rw [Bool.not_eq_true] at hfile
  by_cases hl : ValidName c ∧ fs.tree.isLink (c :: o.loc cwd) = true
  · obtain ⟨txt, htxt⟩ := (FileSystem.isLink_tree _).mp hl.2
    rw [FileSystem.readlinkTurn_link fds hA hl.1 htxt] at hT
    subst hT
    split at hs
    · rcases hs with hs | hs
      · cases hs
      · cases hs
    split at hs
    · rcases hs with hs | hs
      · cases hs
      · cases hs
    rcases hs with hs | hs
    · rcases followLink_cases env x txt with hx | ⟨stack, p, hx⟩
      · cases hs.symm.trans (hx x.errno)
      · cases hs.symm.trans (hx x.errno)
    · exact followLink_stands ⟨o, hA.ok, hA.clear, hA.output, h2, h3⟩ hs
  · have hval : c ≠ [] → c ≠ dotdot → ValidName c := fun h0 hd => ⟨h0, hA.noSlash, hA.noNul, hA.notDot, hd⟩
    have hlink : ValidName c → fs.tree.isLink (c :: o.loc cwd) = false := fun hv => by
      rw [← Bool.not_eq_true]
      exact fun h => hl ⟨hv, h⟩
    obtain ⟨e, he⟩ : ∃ e, readlinkTurn (fs.host cwd fds) env errnoSave x (piece x.output c) c.length (c = dotdot) =
        skipReadlink { x with errno := e } (piece x.output c) c.length (c = dotdot) :=
      FileSystem.readlinkTurn_plain fds hA hfile hlink
    refine skipReadlink_stands' (x := { x with errno := e }) hA.ok hA.clear hA.output h2 hup hA.named (fun h0 hd => ?_)
      (he.symm.trans hT) hs
    refine ⟨hval h0 hd, hA.clear, ?_, ?_⟩
    · rw [FileSystem.isFile_seen]
      exact hfile
    · rw [FileSystem.isLink_seen]
      exact hlink (hval h0 hd)

theorem look_stands (fds : Int → Option Loc) (hA : Asked (fs.walkTree env atflags) cwd (fs.entry cwd = some .dir) x o c) (h2 : x.nup = o.nup)
    (h3 : x.checkDir = true → o.names ≠ []) (hup : c = dotdot → o.names ≠ [] ∨ o.base ≠ .cwd)
    (hT : look (fs.host cwd fds) env errnoSave atflags x c = .next s' ∨
      look (fs.host cwd fds) env errnoSave atflags x c = .restart s') : Stands (fs.walkTree env atflags) cwd s' := by
  by_cases hf : followSymlink atflags = true
  · have ht : fs.walkTree env atflags = fs.seenTree env := if_pos hf
    rw [ht] at hA ⊢
    rw [look, if_neg (by simp [hf]), getxattrTurn] at hT
    split at hT
    · exact readlinkTurn_stands (x := { x with errno := errnoSave }) fds { hA with } h2 h3 hup rfl hT
    · dsimp only at hT
      split at hT
      · rcases hT with hT | hT
        · cases hT
        · cases hT
      split at hT
      · exact readlinkTurn_stands fds hA h2 h3 hup rfl hT
      split at hT
      · rcases hT with hT | hT
        · cases hT
        · cases hT
      · rcases hT with hT | hT
        · cases hT
        · obtain rfl := Turn.restart.inj hT
          exact ⟨o, hA.ok, hA.clear, hA.output, h2, h3⟩
  · have ht : fs.walkTree env atflags = DirTree.blank := if_neg hf
    have hlook : look (fs.host cwd fds) env errnoSave atflags x c = skipReadlink x (piece x.output c) c.length (c = dotdot) := by
      rw [look, if_pos (by simpa using hf)]
    refine skipReadlink_stands' hA.ok hA.clear hA.output h2 hup hA.named (fun h0 hd => ?_) hlook.symm hT
    refine ⟨⟨h0, hA.noSlash, hA.noNul, hA.notDot, hd⟩, ?_⟩
    rw [ht]
    exact FileSystem.clear_blank _

theorem nul_not_mem_component (s : Scan) : nul ∉ component s := by
  intro hm
  have := List.mem_takeWhile_imp hm
  simp at this

theorem turn_stands (fds : Int → Option Loc) (hcwd : fs.entry cwd = some .dir) (B : InBounds s) (S : Stands (fs.walkTree env atflags) cwd s)
    (hT : turn (fs.host cwd fds) env errnoSave atflags s = .next s' ∨
      turn (fs.host cwd fds) env errnoSave atflags s = .restart s') : Stands (fs.walkTree env atflags) cwd s' := by
  obtain ⟨o, hok, hcl, h1, h2, h3⟩ := S
  have hstop : ∀ {T : Turn Scan}, T = .next s' ∨ T = .restart s' → (∀ s', T ≠ .next s' ∧ T ≠ .restart s') →
      Stands (fs.walkTree env atflags) cwd s' := fun hT hne => hT.elim (fun h => absurd h (hne s').1) fun h => absurd h (hne s').2
  have hnext : ∀ {y : Scan}, Turn.next y = .next s' ∨ Turn.next y = .restart s' → y = s' := by
    rintro y (hy | hy)
    · exact Turn.next.inj hy
    · cases hy
  rw [turn_eq _ _ _ _ B] at hT
  by_cases h0 : s.stack[s.p]? = some '/'
  · rw [if_pos h0] at hT
    obtain rfl := hnext hT
    obtain ⟨o', hok', hcl', ht, hn⟩ := stands_root (decide (s.stack[s.p + 1]? = some '/' ∧ s.stack[s.p + 1 + 1]? ≠ some '/'))
      (fs.walkTree env atflags) cwd
    exact ⟨o', hok', hcl', by simpa only [decide_eq_true_eq] using ht, hn, nofun⟩
  rw [if_neg h0] at hT
  by_cases hle : component s = [] ∧ s.checkDir = false
  · rw [if_pos hle] at hT
    exact hstop hT fun _ => ⟨nofun, nofun⟩
  rw [if_neg hle] at hT
  by_cases hdot : component s = dot
  · rw [if_pos hdot] at hT
    obtain rfl := hnext hT
    exact ⟨o, hok, hcl, h1, h2, h3⟩
  rw [if_neg hdot] at hT
  by_cases hov : Overlong s
  · rw [if_pos hov] at hT
    exact hstop hT fun _ => ⟨nofun, nofun⟩
  rw [if_neg hov, compTurn_eq (x := copied s) hok h1 h2] at hT
  have hck : component s = [] → s.checkDir = true := fun hc => by
    rw [not_and, Bool.not_eq_false] at hle
    exact hle hc
  have N : Copies s := ⟨h0, hck, hdot, hov⟩
  have hA : Asked (fs.walkTree env atflags) cwd (fs.entry cwd = some .dir) (copied s) o (component s) := {
    ok := hok
    based := fun _ => hcwd
    clear := hcl
    output := h1
    noSlash := not_slash_mem_component s
    noNul := nul_not_mem_component s
    notDot := hdot
    named := fun hc => h3 (hck hc)
    short := by
      rw [← h1]
      exact addName_lt N
    room := copied_pos B N
    inStack := (copied_inBounds B).p_le }
  by_cases hups : component s = dotdot ∧ o.names = [] ∧ o.base = .cwd
  · rw [if_pos hups] at hT
    obtain rfl := hnext hT
    obtain ⟨ht, hn⟩ := text_up_ups hups.2.1 hups.2.2
    refine ⟨o.up, hok.up, ?_, ?_, ?_, fun hd => absurd hups.2.1 (h3 hd)⟩
    · rw [Place.loc_up]
      exact clear_tail hcl
    · rw [← ht, ← h1, hups.1]
      rfl
    · show s.nup + 1 = _
      rw [hn, h2]
  rw [if_neg hups] at hT
  have hup : component s = dotdot → o.names ≠ [] ∨ o.base ≠ .cwd := by
    intro hc
    by_contra hn
    rw [not_or, not_not, not_not] at hn
    exact hups ⟨hc, hn⟩
  by_cases hback : component s = dotdot ∧ (copied s).checkDir = false
  · rw [if_pos hback] at hT
    rcases hT with hT | hT
    · have hT' : skipReadlink (copied s) (piece (copied s).output (component s)) (component s).length
          (component s = dotdot) = .next s' := by
        rw [decide_eq_true hback.1]
        exact hT
      exact skipReadlink_stands (x := copied s) hok hcl h1 h2 hup hA.named (fun _ hd => absurd hback.1 hd) hT'
    · cases hT
  rw [if_neg hback] at hT
  exact look_stands fds hA h2 h3 hup hT

theorem after_stands (fds : Int → Option Loc) (hcwd : fs.entry cwd = some .dir) (B : InBounds s) (S : Stands (fs.walkTree env atflags) cwd s)
    (ha : after (fs.host cwd fds) env errnoSave atflags s = some s') : Stands (fs.walkTree env atflags) cwd s' := by
  cases ht : turn (fs.host cwd fds) env errnoSave atflags s with
  | next s₁ =>
    rw [after_next ht] at ha
    obtain rfl := Option.some.inj ha
    obtain ⟨o, h⟩ := turn_stands fds hcwd B S (Or.inl ht)
    exact ⟨o, h⟩
  | restart s₁ =>
    rw [after_restart ht] at ha
    obtain rfl := Option.some.inj ha
    exact turn_stands fds hcwd B S (Or.inr ht)
  | leave | fail | fault =>
    rw [after, ht] at ha
    cases ha

/-- What every turn of the call keeps holds where the loop is left. -/
theorem realpathat_leaves {I : Scan → Prop} {fuel : Nat} {path r : Str} {errno : Option Errno} (hstart : I (initial path errno))
    (hstep : ∀ i a b, stateAt h env errno atflags path i = some a → I a → after h env errno atflags a = some b → I b)
    (hr : realpathat h env errno fuel path atflags = .done r) : ∃ s, I s ∧ absolute h s = .done r := by
  by_cases h0 : path = [] ∨ pathMax ≤ path.length
  · obtain ⟨e, he⟩ := realpathat_refused h env errno atflags h0 fuel
    cases hr.symm.trans he
  rw [not_or, Nat.not_le] at h0
  have hinv : ∀ {i a}, orbit (after h env errno atflags) (initial path errno) i = some a → I a :=
    orbit_inv_at hstart fun i a b ha => hstep i a b ((stateAt_of_short h0.1 h0.2 i).trans ha)
  rw [realpathat_loop h0.1 h0.2] at hr
  have hne : loop h env errno atflags fuel (initial path errno) ≠ .unfinished := fun hu => by
    rw [hu] at hr
    cases hr
  obtain ⟨i, a, ha, -, ⟨s', ht, hd⟩ | ⟨e, -, he⟩ | ⟨-, hf⟩⟩ := loop_result hne
  · obtain rfl := leave_eq (stateAt_inBounds ((stateAt_of_short h0.1 h0.2 i).trans ha)) ht
    rw [hd] at hr
    exact ⟨s', hinv ha, hr⟩
  · rw [he] at hr
    cases hr
  · rw [hf] at hr
    cases hr

theorem realpathat_short {fuel : Nat} {path r : Str} {errno : Option Errno}
    (hr : realpathat h env errno fuel path atflags = .done r) : r.length < pathMax := by
  rcases realpathat_cases h env errno atflags path fuel with ⟨e, he⟩ | hu | ⟨p, hp, hlen⟩ | ⟨hf, -⟩
  · cases hr.symm.trans he
  · cases hr.symm.trans hu
  · rw [Ret.done.inj (hr.symm.trans hp)]
    exact hlen
  · cases hr.symm.trans hf

theorem stands_initial (hcwd : fs.entry cwd = some .dir) (path : Str) (errno : Option Errno) :
    Stands (fs.walkTree env atflags) cwd (initial path errno) :=
  ⟨.origin, ⟨nofun, fun h => absurd rfl h⟩, FileSystem.clear_walkTree (FileSystem.clear_of_dir hcwd), rfl, rfl, nofun⟩

theorem absolute_final (fds : Int → Option Loc) (hcwd : fs.entry cwd = some .dir) (hok : o.Ok) (h1 : s.output = o.text)
    (h2 : s.nup = o.nup) {r : Str} (hr : absolute (fs.host cwd fds) s = .done r) : r = o.final cwd := by
  by_cases hb : o.base = .cwd ∧ ¬ (pathOf cwd).length < pathMax
  · have hrel : isAbs s.output = false := by rw [h1, Place.isAbs_text hok, hb.1]; rfl
    have hfail : (fs.host cwd fds).getcwd = .error .ENAMETOOLONG := if_neg hb.2
    rw [absolute, hrel, hfail] at hr
    cases hr
  · rw [absolute_place (fun h => FileSystem.getcwd_of_dir fds ⟨hcwd, not_not.mp fun hl => hb ⟨h, hl⟩⟩) h1 h2 hok] at hr
    split at hr
    · exact (Ret.done.inj hr).symm
    · cases hr

/-- What a walk returns is the path of a place without links on the way to it. -/
theorem realpathat_stands (fds : Int → Option Loc) (hcwd : fs.entry cwd = some .dir) {fuel : Nat} {path r : Str} {errno : Option Errno}
    (hr : realpathat (fs.host cwd fds) env errno fuel path atflags = .done r) :
    ∃ o : Place, o.Ok ∧ (fs.walkTree env atflags).Clear (o.loc cwd) ∧ r = o.final cwd ∧ r.length < pathMax := by
  obtain ⟨s, ⟨o, hok, hcl, h1, h2, -⟩, ha⟩ :=
    realpathat_leaves (stands_initial hcwd path errno) (fun _ _ _ ha => after_stands fds hcwd (stateAt_inBounds ha)) hr
  exact ⟨o, hok, hcl, absolute_final fds hcwd hok h1 h2 ha, realpathat_short hr⟩

end

/-! ## The walk of what a walk returns -/

section
variable {t : DirTree Str} {cwd : Loc} {o : Place}

theorem double_slash_pathOf {ℓ : Loc} (hv : ValidLoc ℓ) : double ('/' :: pathOf ℓ) = true := by
  by_cases hℓ : ℓ = []
  · rw [hℓ]
    rfl
  obtain ⟨w, hw⟩ := render_head hℓ
  have ht := take_render hv hℓ []
  rw [List.append_nil, hw] at ht
  rw [pathOf, if_neg hℓ, hw]
  refine decide_eq_true ⟨rfl, fun hx => ht ?_⟩
  cases w with
  | nil => cases hx
  | cons x w =>
    have hx : some x = some '/' := hx
    rw [Option.some.inj hx]
    rfl

/-- A path that begins with two slashes keeps them. -/
theorem resolved_two {ℓ : Loc} (hv : ValidLoc ℓ) (hc : t.Clear ℓ) (hs : ('/' :: pathOf ℓ).length < pathMax) :
    resolved t cwd ('/' :: pathOf ℓ) = some (.ok ⟨.two, 0, ℓ⟩) := by
  have hroot : t.isFile ((⟨.two, 0, []⟩ : Place).loc cwd) = false := by
    have hl : (⟨.two, 0, []⟩ : Place).loc cwd = [] := rfl
    rw [hl, DirTree.isFile, t.root_dir]
  have hstep : ∀ cs, advance t cwd (symloopMax - 1) ⟨.two, 0, []⟩ (.empty :: cs) = advance t cwd (symloopMax - 1) ⟨.two, 0, []⟩ cs :=
    fun cs => advance_empty (by decide) hroot
  have hstart : Place.origin.start ('/' :: pathOf ℓ) = ⟨.two, 0, []⟩ := by
    rw [Place.start, double_slash_pathOf hv]
    rfl
  rw [resolved, hstart, parse_slash, parse_pathOf hv, hstep, hstep]
  split
  · rename_i hℓ
    rw [hℓ, hstep, advance_nil]
    rfl
  · have hp : (⟨.two, 0, ℓ.reverse.reverse ++ []⟩ : Place) = ⟨.two, 0, ℓ⟩ := by rw [List.reverse_reverse, List.append_nil]
    have hloc : (⟨.two, 0, []⟩ : Place).loc cwd = [] := rfl
    have htext : (⟨.two, 0, ℓ⟩ : Place).text = '/' :: pathOf ℓ :=
      Place.text_eq_final ⟨hv, fun _ => rfl⟩ (by simp) cwd
    have hn : advance t cwd (symloopMax - 1) ⟨.two, 0, []⟩ (ℓ.reverse.map .name ++ []) =
        advance t cwd (symloopMax - 1) ⟨.two, 0, ℓ.reverse.reverse ++ []⟩ [] :=
      advance_names [] (by rw [hloc, List.reverse_reverse, List.append_nil]; exact hc) (by rw [hp, htext]; exact hs)
    rw [List.append_nil, hp] at hn
    rw [hn, advance_nil]
    rfl

theorem Place.Ok.valid_loc (hok : o.Ok) (hv : ValidLoc cwd) : ValidLoc (o.loc cwd) := by
  intro c hm
  rw [Place.loc] at hm
  rcases List.mem_append.mp hm with hm | hm
  · exact hok.valid c hm
  · split at hm
    · exact hv c (List.mem_of_mem_drop hm)
    · cases hm

theorem Place.isAbs_final (o : Place) (cwd : Loc) : isAbs (o.final cwd) = true := by
  unfold Place.final
  split
  · rfl
  · exact isAbs_pathOf _

theorem Place.nul_not_mem_final (hok : o.Ok) (hv : ValidLoc cwd) : nul ∉ o.final cwd := by
  unfold Place.final
  split
  · rw [List.mem_cons, not_or]
    exact ⟨by decide, nul_not_mem_pathOf hok.valid⟩
  · exact nul_not_mem_pathOf (hok.valid_loc hv)

theorem resolved_final (hok : o.Ok) (hv : ValidLoc cwd) (hc : t.Clear (o.loc cwd)) (hs : (o.final cwd).length < pathMax) :
    ∃ o' : Place, resolved t cwd (o.final cwd) = some (.ok o') ∧ o'.final cwd = o.final cwd := by
  unfold Place.final at hs ⊢
  by_cases hb : o.base = .two
  · have hl : o.loc cwd = o.names := by
      rw [Place.loc, hb]
      exact List.append_nil _
    rw [hl] at hc
    simp only [if_pos hb] at hs ⊢
    exact ⟨_, resolved_two hok.valid hc hs, rfl⟩
  · simp only [if_neg hb] at hs ⊢
    exact ⟨_, resolved_pathOf (hok.valid_loc hv) hc hs, Place.ofLoc_final _ cwd⟩

end

section
variable {fs : FileSystem} {env : Option Str} {atflags : Word} {cwd : Loc} {bufsiz : Nat} {errno : Option Errno}

def Fixed (h : Host) (env : Option Str) (bufsiz : Nat) (atflags : Word) (buf : Str) : Prop :=
  ∀ errno, ∃ e, Settles (fun fuel => walkBuf h env fuel bufsiz atflags errno buf) (.done (buf, e))

/-- **A walk is done once.** What it leaves in the buffer, another walk leaves there. -/
theorem walkBuf_fixed (fds : Int → Option Loc) (hattr : followSymlink atflags = true → fs.NoAttr)
    (hcwd : fs.entry cwd = some .dir) (hroot : nul ∉ getrootdir env) (hbuf : pathMax ≤ bufsiz) {fuel : Nat} {buf : Str}
    {r : Str × Option Errno} (hr : walkBuf (fs.host cwd fds) env fuel bufsiz atflags errno buf = .done r) :
    Fixed (fs.host cwd fds) env bufsiz atflags r.1 := by
  unfold walkBuf at hr
  cases hw : realpathat (fs.host cwd fds) env errno fuel buf atflags with
  | done tmp =>
    rw [hw] at hr
    obtain ⟨o, hok, hcl, hfin, hlen⟩ := realpathat_stands fds hcwd hw
    have hr1 : r.1 = o.final cwd := by
      rw [← Ret.done.inj hr, ← hfin]
      exact strncpy_short hbuf hlen
    rw [hfin] at hlen
    have hvc : ValidLoc cwd := fs.valid (by rw [hcwd]; nofun)
    obtain ⟨o', ho', hfin'⟩ := resolved_final hok hvc hcl hlen
    have habs := Place.isAbs_final o cwd
    have hne : o.final cwd ≠ [] := fun h => by
      rw [h] at habs
      cases habs
    intro errno'
    have h := walkBuf_settles hattr (fun h => by rw [habs] at h; cases h) hroot hne hlen (Place.nul_not_mem_final hok hvc) ho'
      fds bufsiz errno'
    simp only [leaves, hfin', strncpy_short hbuf hlen] at h
    rw [hr1]
    exact ⟨_, h⟩
  | fail e =>
    rw [hw] at hr
    obtain rfl := Ret.done.inj hr
    intro errno'
    refine ⟨some e, fuel, fun k => ?_⟩
    have hne := realpathat_steady (fs.host cwd fds) env errno' buf atflags fuel
    have hb : realpathat (fs.host cwd fds) env errno' fuel buf atflags = .fail e := by
      rw [realpathat_bare (fun p => fs.readlink_ne_nil cwd p) fuel buf, hw]
    have hk : realpathat (fs.host cwd fds) env errno' (fuel + k) buf atflags = .fail e :=
      (hne (fun hu => by cases hb.symm.trans hu) k).trans hb
    show walkBuf (fs.host cwd fds) env (fuel + k) bufsiz atflags errno' buf = _
    rw [walkBuf, hk]
  | fault | unfinished =>
    rw [hw] at hr
    cases hr

end

/-! ## The result of a call -/

/-- No root directory, or one that is set as `chroot` sets it. -/
def CanonicalRoot (env : Option Str) : Prop := getrootdir env = ['/'] ∨ ∃ R : RootDir, env = some R.path

def LeftAlone (re : Option (Str → Bool)) (prflags : Word) (path : Str) : Prop :=
  allowMagicLinks prflags = true ∧ devFd <+: path ∨ allowIgnore prflags = true ∧ ignore re path = true

/-- The path is in the root directory, and nothing is to be done to it there. -/
structure InPlace (env : Option Str) (re : Option (Str → Bool)) (prflags : Word) (path : Str) : Prop where
  below : rootOf env <+: path
  kept : allowIgnore prflags = true → ignore re (path.drop (rootOf env).length) = false
  trimmed : pathSanitize path = path

section
variable {fs : FileSystem} {env : Option Str} {re : Option (Str → Bool)} {atflags prflags : Word} {cwd : Loc}
  {errno : Option Errno} {p r : Str}

theorem CanonicalRoot.noNul (h : CanonicalRoot env) : nul ∉ getrootdir env := by
  rcases h with h | ⟨R, rfl⟩
  · rw [h]
    decide
  · exact R.noNul

theorem CanonicalRoot.short (h : CanonicalRoot env) : (rootOf env).length < pathMax := by
  rcases h with h | ⟨R, rfl⟩
  · rw [rootOf, h]
    decide
  · rw [rootOf_root]
    exact R.path_short

theorem strip_ignored (h : CanonicalRoot env) {buf : Str} (ha : isAbs buf = true) (hn : nul ∉ buf) (hs : buf.length < pathMax)
    (hp : strleq buf (rootOf env) = true) (hi : ignore re (buf.drop (strlen (rootOf env))) = true) :
    (striprootdir env buf).getD buf = buf.drop (strlen (rootOf env)) := by
  have hne : buf ≠ [] := fun e => by
    rw [e] at ha
    cases ha
  rcases h with h | ⟨R, rfl⟩
  · have hr : rootOf env = [] := by
      rw [rootOf, h]
      rfl
    rw [striprootdir, if_neg hne, h, hr]
    rfl
  · rw [rootOf_root] at hp hi ⊢
    rw [R.strlen_path] at hi ⊢
    rw [strleq_iff R.path_short] at hp
    rw [isAbs, beq_iff_eq] at ha
    have hd : buf.drop R.path.length ≠ [] := fun e => by
      rw [e] at hi
      cases hi
    rw [striprootdir_eq R ⟨buf, ha, hn, hs⟩, skiprootdir_eq R ⟨buf, ha, hn, hs⟩]
    simp only [hp, hd, if_true, if_false]
    rfl

theorem walkBuf_kind (fds : Int → Option Loc) (hcwd : fs.entry cwd = some .dir) {fuel : Nat} {buf : Str} {x : Str × Option Errno} (hs : buf.length < pathMax)
    (hx : walkBuf (fs.host cwd fds) env fuel pathMax atflags errno buf = .done x) :
    x.1.length < pathMax ∧ (isAbs buf = true → isAbs x.1 = true) ∧ (nul ∉ buf → nul ∉ x.1) := by
  unfold walkBuf at hx
  cases hw : realpathat (fs.host cwd fds) env errno fuel buf atflags with
  | done tmp =>
    rw [hw] at hx
    obtain ⟨o, hok, -, hfin, hlen⟩ := realpathat_stands fds hcwd hw
    have hx1 : x.1 = tmp := by
      rw [← Ret.done.inj hx]
      exact strncpy_short (Nat.le_refl _) hlen
    rw [hx1]
    refine ⟨hlen, fun _ => ?_, fun _ => ?_⟩
    · rw [hfin]
      exact Place.isAbs_final o cwd
    · rw [hfin]
      exact Place.nul_not_mem_final hok (fs.valid (by rw [hcwd]; nofun))
  | fail e =>
    rw [hw] at hx
    obtain rfl := Ret.done.inj hx
    exact ⟨hs, id, id⟩
  | fault | unfinished =>
    rw [hw] at hx
    cases hx

/-- What is left in the buffer at the end is ignored as it stands, or another walk leaves it alone. -/
theorem finishBuf_result (fds : Int → Option Loc) (hattr : followSymlink atflags = true → fs.NoAttr)
    (hcwd : fs.entry cwd = some .dir) (hR : CanonicalRoot env) {fuel : Nat} {buf : Str} (ha : isAbs buf = true)
    (hn : nul ∉ buf) (hs : buf.length < pathMax)
    (hr : finishBuf (fs.host cwd fds) env re fuel pathMax atflags prflags errno false buf = .done r) :
    r.length < pathMax ∧ (rootOf env = [] → isAbs r = true) ∧
      (allowIgnore prflags = true ∧ ignore re r = true ∨
        (followSymlink atflags = true ∨ allowWalkAlong prflags = true → Fixed (fs.host cwd fds) env pathMax atflags r)) := by
  unfold finishBuf at hr
  obtain ⟨x, hx, hr⟩ := Ret.of_bind hr
  have hz := trims_sanitize buf
  have hzs : (pathSanitize buf).length < pathMax := Nat.lt_of_le_of_lt hz.part.length_le hs
  have hzn : nul ∉ pathSanitize buf := fun hm => hn (hz.part.subset hm)
  -- the first walk
  obtain ⟨hxs, hxa, hxn, hxf⟩ : x.1.length < pathMax ∧ isAbs x.1 = true ∧ nul ∉ x.1 ∧
      (followSymlink atflags = true → Fixed (fs.host cwd fds) env pathMax atflags x.1) := by
    by_cases hf : followSymlink atflags = true
    · rw [if_pos hf] at hx
      obtain ⟨h1, h2, h3⟩ := walkBuf_kind fds hcwd hzs hx
      exact ⟨h1, h2 (hz.abs.trans ha), h3 hzn, fun _ => walkBuf_fixed fds hattr hcwd hR.noNul (Nat.le_refl _) hx⟩
    · rw [if_neg hf] at hx
      obtain rfl := Ret.done.inj hx
      exact ⟨hzs, hz.abs.trans ha, hzn, fun h => absurd h hf⟩
  simp only [Bool.false_eq_true, false_and, and_false, if_false] at hr
  -- the test between the walks
  obtain ⟨y, hy⟩ : ∃ y, y = if strleq x.1 (rootOf env) = true ∧ allowIgnore prflags = true ∧
      ignore re (x.1.drop (strlen (rootOf env))) = true then (striprootdir env x.1).getD x.1 else x.1 := ⟨_, rfl⟩
  rw [← hy] at hr
  obtain ⟨hys, hya, hyf⟩ : y.length < pathMax ∧ (rootOf env = [] → isAbs y = true) ∧
      (allowIgnore prflags = true ∧ ignore re y = true ∨ y = x.1) := by
    by_cases hi : strleq x.1 (rootOf env) = true ∧ allowIgnore prflags = true ∧
        ignore re (x.1.drop (strlen (rootOf env))) = true
    · rw [if_pos hi, strip_ignored hR hxa hxn hxs hi.1 hi.2.2] at hy
      refine ⟨?_, fun h0 => ?_, Or.inl ⟨hi.2.1, by rw [hy]; exact hi.2.2⟩⟩
      · rw [hy, List.length_drop]
        omega
      · rw [hy, h0]
        exact hxa
    · rw [if_neg hi] at hy
      exact ⟨hy ▸ hxs, fun _ => hy ▸ hxa, Or.inr hy⟩
  -- the second walk
  by_cases hw : allowWalkAlong prflags = true
  · rw [if_pos hw] at hr
    obtain ⟨v, hv, hr⟩ := Ret.of_bind hr
    obtain rfl := Ret.done.inj hr
    obtain ⟨h1, h2, -⟩ := walkBuf_kind fds hcwd hys hv
    exact ⟨h1, fun h0 => h2 (hya h0), Or.inr fun _ => walkBuf_fixed fds hattr hcwd hR.noNul (Nat.le_refl _) hv⟩
  · rw [if_neg hw] at hr
    obtain rfl := Ret.done.inj hr
    refine ⟨hys, hya, hyf.imp id fun he => ?_⟩
    rintro (hf | hw')
    · rw [he]
      exact hxf hf
    · exact absurd hw' hw

theorem copyAsIs_settles {h : Host} (hs : p.length < pathMax) (hmagic : allowMagicLinks prflags = true → p ≠ procRoot)
    (hl : LeftAlone re prflags p) (errno : Option Errno) (dfd : Int) :
    Settles (fun fuel => pathResolution2 h env re fuel pathMax atflags prflags errno dfd p) (.done p) := by
  have hlen : strnlen p pathMax ≠ pathMax := by
    unfold strnlen
    omega
  have hproc : ¬ (allowMagicLinks prflags = true ∧ streq p procRoot = true) := fun hm =>
    hmagic hm.1 ((streq_iff _ _).mp hm.2)
  have hcopy : copyAsIs p pathMax = .done p := by
    unfold copyAsIs
    rw [strncpy_short (Nat.le_refl _) hs]
    exact if_neg (not_not_intro rfl)
  refine ⟨0, fun fuel => ?_⟩
  show pathResolution2 h env re (0 + fuel) pathMax atflags prflags errno dfd p = .done p
  unfold pathResolution2
  rw [if_neg hlen, if_neg hproc]
  by_cases hd : allowMagicLinks prflags = true ∧ strneq p devFd devFd.length = true
  · rw [if_pos hd, hcopy]
  rw [if_neg hd]
  rcases hl with ⟨hm, hp⟩ | hi
  · refine absurd ⟨hm, ?_⟩ hd
    rw [strneq, List.take_length, beq_iff_eq]
    exact take_length_prefix.mpr hp
  · rw [if_pos hi, hcopy]

theorem pathResolution2_root {h : Host} {fuel : Nat} {dfd : Int} (hR : CanonicalRoot env) (ho : Ordinary re prflags p)
    (ha : isAbs p = true) (hp : rootOf env <+: p) : pathResolution2 h env re fuel pathMax atflags prflags errno dfd p =
      finishBuf h env re fuel pathMax atflags prflags errno false p := by
  have htext : (rootOf env ++ if rootOf env ≠ [] ∧ strleq p (rootOf env) = true then p.drop (strlen (rootOf env)) else p) = p := by
    by_cases h0 : rootOf env = []
    · rw [if_neg fun h => h.1 h0, h0, List.nil_append]
    · rw [if_pos ⟨h0, (strleq_iff hR.short).mpr hp⟩, strlen_of_lt hR.short]
      obtain ⟨w, hw⟩ := hp
      rw [← hw, List.drop_left]
  unfold pathResolution2
  rw [ho.guards, if_pos ha]
  simp only [htext, snprintf_short (Nat.le_refl _) ho.short]

theorem nul_not_mem_textOf (hR : CanonicalRoot env) (hn : nul ∉ p) : nul ∉ rootOf env ++
    (if rootOf env ≠ [] ∧ strleq p (rootOf env) = true then p.drop (strlen (rootOf env)) else p) := by
  rw [List.mem_append, not_or]
  constructor
  · unfold rootOf
    split
    · nofun
    · exact hR.noNul
  · split
    · exact fun hm => hn (List.mem_of_mem_drop hm)
    · exact hn

theorem isAbs_textOf (hR : CanonicalRoot env) (ha : isAbs p = true) : isAbs (rootOf env ++
    (if rootOf env ≠ [] ∧ strleq p (rootOf env) = true then p.drop (strlen (rootOf env)) else p)) = true := by
  by_cases h0 : rootOf env = []
  · rw [if_neg fun h => h.1 h0, h0]
    exact ha
  · rw [isAbs_append h0]
    rcases hR with h | ⟨R, rfl⟩
    · refine absurd ?_ h0
      rw [rootOf, h]
      rfl
    · rw [rootOf_root]
      exact isAbs_render R.ne_nil

/-- What a call returns for an absolute path is copied, or no walk changes it. -/
theorem pathResolution2_result (fds : Int → Option Loc) (hattr : followSymlink atflags = true → fs.NoAttr)
    (hcwd : fs.entry cwd = some .dir) (hR : CanonicalRoot env) {fuel : Nat} {dfd : Int} (ha : isAbs p = true) (hn : nul ∉ p)
    (hr : pathResolution2 (fs.host cwd fds) env re fuel pathMax atflags prflags errno dfd p = .done r) :
    r.length < pathMax ∧ (rootOf env = [] → isAbs r = true) ∧ (LeftAlone re prflags r ∨
      (followSymlink atflags = true ∨ allowWalkAlong prflags = true → Fixed (fs.host cwd fds) env pathMax atflags r)) := by
  unfold pathResolution2 at hr
  by_cases hlen : strnlen p pathMax = pathMax
  · rw [if_pos hlen] at hr
    cases hr
  have hs : p.length < pathMax := by
    unfold strnlen at hlen
    omega
  have hcopy : copyAsIs p pathMax = .done r → r = p := fun h => by
    unfold copyAsIs at h
    rw [strncpy_short (Nat.le_refl _) hs] at h
    dsimp only at h
    split at h
    · cases h
    · exact (Ret.done.inj h).symm
  rw [if_neg hlen] at hr
  by_cases hp : allowMagicLinks prflags = true ∧ streq p procRoot = true
  · rw [if_pos hp] at hr
    obtain rfl : ['/'] = r := Ret.done.inj hr
    have hroot : Canonical fs [] := ⟨by simp [ValidLoc], trivial, by decide⟩
    exact ⟨by decide, fun _ => rfl,
      Or.inr fun _ errno => ⟨_, walkBuf_canonical hattr hR.noNul (Nat.le_refl _) hroot⟩⟩
  rw [if_neg hp] at hr
  by_cases hd : allowMagicLinks prflags = true ∧ strneq p devFd devFd.length = true
  · rw [if_pos hd] at hr
    obtain rfl := hcopy hr
    refine ⟨hs, fun _ => ha, Or.inl (Or.inl ⟨hd.1, ?_⟩)⟩
    have hpre := hd.2
    rw [strneq, List.take_length, beq_iff_eq] at hpre
    exact take_length_prefix.mp hpre
  rw [if_neg hd] at hr
  by_cases hi : allowIgnore prflags = true ∧ ignore re p = true
  · rw [if_pos hi] at hr
    obtain rfl := hcopy hr
    exact ⟨hs, fun _ => ha, Or.inl (Or.inr hi)⟩
  rw [if_neg hi, if_pos ha] at hr
  have hta := isAbs_textOf hR ha
  have htn := nul_not_mem_textOf hR hn
  simp only at hr
  obtain ⟨text, htext⟩ : ∃ text, text = rootOf env ++
    (if rootOf env ≠ [] ∧ strleq p (rootOf env) = true then p.drop (strlen (rootOf env)) else p) := ⟨_, rfl⟩
  rw [← htext] at hr hta htn
  unfold snprintf at hr
  by_cases ht : text.length < pathMax
  · rw [if_pos ht] at hr
    obtain ⟨h1, h2, h3⟩ := finishBuf_result fds hattr hcwd hR hta htn ht hr
    exact ⟨h1, h2, h3.imp Or.inr id⟩
  · rw [if_neg ht] at hr
    cases hr

/-- **A second call.** What a call returns for an absolute path, another call returns as it is, when the
path is one that is copied, or is in place in the root directory, and is not the magic link. -/
theorem pathResolution2_idempotent (fds : Int → Option Loc) (hattr : followSymlink atflags = true → fs.NoAttr)
    (hcwd : fs.entry cwd = some .dir) (hR : CanonicalRoot env) {fuel : Nat} {dfd : Int} (ha : isAbs p = true) (hn : nul ∉ p)
    (hr : pathResolution2 (fs.host cwd fds) env re fuel pathMax atflags prflags errno dfd p = .done r)
    (hmagic : allowMagicLinks prflags = true → r ≠ procRoot) (hstay : LeftAlone re prflags r ∨ InPlace env re prflags r) :
    ∀ errno' dfd', Settles
      (fun fuel => pathResolution2 (fs.host cwd fds) env re fuel pathMax atflags prflags errno' dfd' r) (.done r) := by
  intro errno' dfd'
  obtain ⟨hs, habs, hfix⟩ := pathResolution2_result fds hattr hcwd hR ha hn hr
  by_cases hl : LeftAlone re prflags r
  · exact copyAsIs_settles hs hmagic hl errno' dfd'
  have I := hstay.resolve_left hl
  have hfix := hfix.resolve_left hl
  have hra : isAbs r = true := by
    by_cases h0 : rootOf env = []
    · exact habs h0
    · have hw := I.below
      rcases hR with h | ⟨R, rfl⟩
      · refine absurd ?_ h0
        rw [rootOf, h]
        rfl
      · obtain ⟨w, rfl⟩ := hw
        rw [isAbs_append h0, rootOf_root]
        exact isAbs_render R.ne_nil
  have ho : Ordinary re prflags r := by
    refine ⟨hs, fun hm => ⟨hmagic hm, fun hp => hl (Or.inl ⟨hm, hp⟩)⟩, fun hi => ?_⟩
    rw [← Bool.not_eq_true]
    exact fun h => hl (Or.inr ⟨hi, h⟩)
  refine Settles.congr (fun fuel => pathResolution2_root hR ho hra I.below) ?_
  obtain ⟨e, h1⟩ : ∃ e, Settles (fun fuel => if followSymlink atflags then walkBuf (fs.host cwd fds) env fuel pathMax atflags
      errno' (pathSanitize r) else .done (pathSanitize r, errno')) (.done (r, e)) := by
    rw [I.trimmed]
    by_cases hf : followSymlink atflags = true
    · simp only [hf, if_true]
      exact hfix (Or.inl hf) errno'
    · simp only [hf, if_false, Bool.false_eq_true]
      exact ⟨errno', Settles.const _⟩
  refine finishBuf_run h1 (if_neg (by simp)) (if_neg ?_) ?_
  · rintro ⟨-, hi, hd⟩
    rw [strlen_of_lt hR.short, I.kept hi] at hd
    cases hd
  · by_cases hw : allowWalkAlong prflags = true
    · rw [if_pos hw]
      exact hfix (Or.inr hw) e
    · rw [if_neg hw]

end

/-- The path `/x` of the chroot `/r`. -/
theorem pathResolution2_idempotent_plain : Settles (fun fuel => pathResolution2 (beside.host [] fun _ => none)
    (some rootR.path) none fuel pathMax 0 0 none atFdcwd "/r/x".toList) (.done "/r/x".toList) := by
  have hp : InChrootPath beside rootR none [['x']] := ⟨by decide, by decide, by decide, by decide, by decide⟩
  obtain ⟨n, hn⟩ : Settles (fun fuel => pathResolution (beside.host [] fun _ => none) (some rootR.path) none fuel pathMax 0 none
      atFdcwd "/x".toList) (.done "/r/x".toList) :=
    pathResolution_plain hp (Nat.le_refl _) (by decide) (by decide) atFdcwd
  exact pathResolution2_idempotent (p := "/x".toList) _ (fun _ _ => rfl) rfl (Or.inr ⟨rootR, rfl⟩) rfl (by decide) (hn 0)
    (fun _ => by decide) (Or.inr ⟨by decide, fun _ => rfl, by decide⟩) none atFdcwd

def roundabout : FileSystem := .ofList [([['r']], .dir), ([['i']], .dir), ([['l'], ['i']], .link "../x".toList), ([['x']], .dir)]
  (by decide)

def ignoresI : Option (Str → Bool) := some ("/i".toList.isPrefixOf ·)

/-- A second call changes what the magic link has been resolved to, and what a link out of an ignored directory
of the host has led to. -/
theorem pathResolution2_changes :
    (Settles (fun fuel => pathResolution2 (beside.host [] fun _ => none) (some rootR.path) none fuel pathMax 0 0 none
        atFdcwd procRoot) (.done ['/']) ∧
      ¬ Settles (fun fuel => pathResolution2 (beside.host [] fun _ => none) (some rootR.path) none fuel pathMax 0 0 none
        atFdcwd ['/']) (.done ['/'])) ∧
    Settles (fun fuel => pathResolution2 (roundabout.host [] fun _ => none) (some rootR.path) ignoresI fuel pathMax 0 0 none
        atFdcwd "/./i/l".toList) (.done "/x".toList) ∧
      ¬ Settles (fun fuel => pathResolution2 (roundabout.host [] fun _ => none) (some rootR.path) ignoresI fuel pathMax 0 0
        none atFdcwd "/x".toList) (.done "/x".toList) := by
  have hroot : InChrootPath beside rootR none [] := ⟨by decide, by decide, by decide, by decide, by decide⟩
  have hx : InChrootPath roundabout rootR ignoresI [['x']] := ⟨by decide, by decide, by decide, by decide, by decide⟩
  refine ⟨⟨⟨0, fun _ => rfl⟩, fun h => ?_⟩, ?_, fun h => ?_⟩
  · exact absurd (Settles.unique (pathResolution_plain hroot (Nat.le_refl _) (by decide) (by decide) atFdcwd) h) (by decide)
  · have hno : ∀ atflags, followSymlink atflags = true → roundabout.NoAttr := fun _ _ _ => rfl
    have ho : Ordinary ignoresI 0 "/./i/l".toList := ⟨by decide, fun _ => by decide, fun _ => by decide⟩
    refine Settles.congr (fun fuel => pathResolution2_abs (R := rootR) ho (Nat.le_refl _) (by decide) (by decide) (by decide)) ?_
    have hstrip : (if strleq "/r/i/l".toList (rootOf (some rootR.path)) = true ∧ allowIgnore 0 = true ∧
        ignore ignoresI ("/r/i/l".toList.drop (strlen (rootOf (some rootR.path)))) = true then
          (striprootdir (some rootR.path) "/r/i/l".toList).getD "/r/i/l".toList else "/r/i/l".toList) = "/i/l".toList := by
      decide
    refine finishBuf_run (e := none) ?_ rfl hstrip ⟨none, ?_⟩
    · exact walkBuf_settles (r := .ok (.ofLoc [['l'], ['i'], ['r']])) (hno 0) (by decide) (by decide) (by decide) (by decide)
        (by decide) rfl _ _ _
    · exact walkBuf_settles (r := .ok (.ofLoc [['x']])) (hno 0) (by decide) (by decide) (by decide) (by decide) (by decide)
        rfl _ _ _
  · exact absurd (Settles.unique (pathResolution_plain hx (Nat.le_refl _) (by decide) (by decide) atFdcwd) h) (by decide)

end Iamroot
