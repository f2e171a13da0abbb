import Iamroot.Termination
import Iamroot.RealpathHost

/-!
# The walk of the C library

`next_realpath` is the walk that `__realpathat` was made from. It takes no
attribute into account, it fails at a component that is missing, and it knows
no root directory. What both have is `popTurn`, the array `stack` at the start
and the end of the function.
-/

namespace Iamroot

open Orbit

def nextFollowLink (s : Scan) (t : Str) : Turn Scan :=
  let k := t.length
  let stack := t ++ s.stack.drop k
  let p := if stack[k - 1]? = some '/' then s.p + slashLen (stack.drop s.p) else s.p
  if p < k then .fault
  else
    .restart { s with
      stack := stack.take (p - k) ++ stack.take k ++ stack.drop p
      p := p - k
      cnt := s.cnt + 1 }

def nextReadlinkTurn (h : Host) (errnoSave : Option Errno) (s : Scan) (piece : Str) (l0 : Nat) (up : Bool) : Turn Scan :=
  match readlink h (s.output ++ piece) s.p with
  | .ok t =>
    if t.length = s.p then .fail .ENAMETOOLONG
    else if t.length = 0 then .fail .ENOENT
    else if s.cnt + 1 = symloopMax then .fail .ELOOP
    else nextFollowLink s t
  | .error e =>
    if e ≠ .EINVAL then .fail e
    else skipReadlink { s with errno := errnoSave } piece l0 up

def nextTurn (h : Host) (errnoSave : Option Errno) (s : Scan) : Turn Scan :=
  popTurn (fun x piece l0 up =>
    if up ∧ x.checkDir = false then skipReadlink x piece l0 up
    else nextReadlinkTurn h errnoSave x piece l0 up) s

def nextLoop (h : Host) (errnoSave : Option Errno) : Nat → Scan → Ret Scan
  | 0, _ => .unfinished
  | fuel + 1, s =>
    match nextTurn h errnoSave s with
    | .next s => nextLoop h errnoSave fuel { s with p := s.p + slashLen (s.stack.drop s.p) }
    | .restart s => nextLoop h errnoSave fuel s
    | .leave s => .done s
    | .fail e => .fail e
    | .fault => .fault

def nextRealpath (h : Host) (errno : Option Errno) (fuel : Nat) (filename : Str) : Ret Str :=
  let l := strnlen filename (pathMax + 1)
  if l = 0 then .fail .ENOENT
  else if pathMax ≤ l then .fail .ENAMETOOLONG
  else
    match nextLoop h errno fuel (initial filename errno) with
    | .done s => absolute h s
    | .fail e => .fail e
    | .fault => .fault
    | .unfinished => .unfinished

/-! ## The turns agree -/

/-- The two walks may have another `errno` on the way, which only the text of length 0 makes a difference for. -/
def Scan.bare (s : Scan) : Scan := { s with errno := none }

def Turn.bare : Turn Scan → Turn Scan
  | .next s => .next s.bare
  | .restart s => .restart s.bare
  | .leave s => .leave s.bare
  | .fail e => .fail e
  | .fault => .fault

def Missing (h : Host) (atflags : Word) (s : Scan) : Prop :=
  Asks atflags s ∧ h.readlink (addName s.output (component s)) = .error .ENOENT

section
variable {h : Host} {errnoSave : Option Errno} {atflags : Word} {s s' : Scan}

theorem bare_cases (hs : s.bare = s'.bare) : ∃ e, s' = { s with errno := e } := by
  obtain ⟨_⟩ := s
  obtain ⟨_⟩ := s'
  simp only [Scan.bare, Scan.mk.injEq] at hs
  obtain ⟨rfl, rfl, rfl, rfl, rfl, rfl, -⟩ := hs
  exact ⟨_, rfl⟩

theorem skipReadlink_bare (hs : s.bare = s'.bare) (p : Str) (l0 : Nat) (up : Bool) :
    (skipReadlink s p l0 up).bare = (skipReadlink s' p l0 up).bare := by
  obtain ⟨e, rfl⟩ := bare_cases hs
  unfold skipReadlink
  split
  · rfl
  · rfl

theorem followLink_none (s : Scan) (t : Str) (ht : t.length < s.stack.length) :
    followLink none s t = nextFollowLink s t := by
  have hroot : (isAbs t && inchroot none) = false := by
    rw [show inchroot none = false from rfl, Bool.and_false]
  have hk : ¬ (t ++ s.stack.drop t.length).length ≤ 0 + t.length := by
    rw [List.length_append, List.length_drop]
    omega
  unfold followLink nextFollowLink
  simp only [hroot, Bool.false_eq_true, if_false, List.length_nil]
  rw [if_neg hk]
  simp only [Nat.zero_add, List.nil_append, List.take_append_drop]

theorem nextFollowLink_bare (hs : s.bare = s'.bare) (t : Str) : (nextFollowLink s t).bare = (nextFollowLink s' t).bare := by
  obtain ⟨e, rfl⟩ := bare_cases hs
  unfold nextFollowLink
  dsimp only
  split
  · split
    · rfl
    · rfl
  · split
    · rfl
    · rfl

variable (h errnoSave) in
theorem readlink_agree (hsz : s.stack.length = pathMax + 1) (hp : s.p ≤ pathMax) (hs : s.bare = s'.bare) {name p : Str}
    (hname : s.output ++ p = name) (hpos : 0 < s.p) (hne : h.readlink name ≠ .ok []) (l0 : Nat) (up : Bool) :
    (h.readlink name = .error .ENOENT ∧ nextReadlinkTurn h errnoSave s' p l0 up = .fail .ENOENT) ∨
      (readlinkTurn h none errnoSave s p l0 up).bare = (nextReadlinkTurn h errnoSave s' p l0 up).bare := by
  obtain ⟨e, rfl⟩ := bare_cases hs
  have hr : readlink h (s.output ++ p) s.p = (h.readlink name).map (·.take s.p) := by
    rw [hname, readlink, if_neg (by omega)]
  unfold readlinkTurn nextReadlinkTurn
  dsimp only
  rw [hr]
  cases hl : h.readlink name with
  | error err =>
    dsimp only [Except.map]
    by_cases he : err = .ENOENT
    · refine Or.inl ⟨by rw [he], ?_⟩
      rw [he, if_pos (by decide)]
    · rw [if_neg he]
      by_cases hi : err ≠ .EINVAL
      · rw [if_pos hi]
        exact Or.inr rfl
      · rw [if_neg hi]
        exact Or.inr rfl
  | ok t =>
    dsimp only [Except.map]
    refine Or.inr ?_
    by_cases h1 : (t.take s.p).length = s.p
    · rw [if_pos h1, if_pos h1]
    rw [if_neg h1, if_neg h1]
    have hlt : t.length < s.p := by
      rw [List.length_take] at h1
      omega
    have h0 : ¬ (t.take s.p).length = 0 := by
      rw [List.take_of_length_le (by omega)]
      intro h0
      rw [hl, List.length_eq_zero_iff.mp h0] at hne
      exact hne rfl
    rw [if_neg h0, if_neg h0]
    by_cases h2 : s.cnt + 1 = symloopMax
    · rw [if_pos h2, if_pos h2]
    rw [if_neg h2, if_neg h2, followLink_none s _ (by rw [List.length_take]; omega)]
    exact nextFollowLink_bare hs _

variable (errnoSave) in
/-- The turns do the same, or the one of `next_realpath` has met a missing component. -/
theorem turn_agree (hno : ∀ p, ∃ e, h.getxattr p = .error e) (hne : ∀ p, h.readlink p ≠ .ok [])
    (hf : followSymlink atflags = true) (B : InBounds s) (hs : s.bare = s'.bare) :
    (Missing h atflags s ∧ nextTurn h errnoSave s' = .fail .ENOENT) ∨
      (turn h none errnoSave atflags s).bare = (nextTurn h errnoSave s').bare := by
  obtain ⟨e, rfl⟩ := bare_cases hs
  have B' : InBounds { s with errno := e } := { B with }
  have hcomp : component { s with errno := e } = component s := rfl
  have hov : Overlong { s with errno := e } ↔ Overlong s := Iff.rfl
  rw [turn_eq h none errnoSave atflags B, nextTurn, popTurn_eq B']
  simp only [hcomp, hov]
  by_cases h0 : s.stack[s.p]? = some '/'
  · rw [if_pos h0, if_pos h0]
    exact Or.inr rfl
  rw [if_neg h0, if_neg h0]
  by_cases h1 : component s = [] ∧ s.checkDir = false
  · rw [if_pos h1, if_pos h1]
    exact Or.inr rfl
  rw [if_neg h1, if_neg h1]
  by_cases h2 : component s = dot
  · rw [if_pos h2, if_pos h2]
    exact Or.inr rfl
  rw [if_neg h2, if_neg h2]
  by_cases h3 : Overlong s
  · rw [if_pos h3, if_pos h3]
    exact Or.inr rfl
  rw [if_neg h3, if_neg h3]
  have N : Copies s := by
    refine ⟨h0, fun hc => ?_, h2, h3⟩
    rw [not_and, Bool.not_eq_false] at h1
    exact h1 hc
  unfold compTurn
  by_cases h4 : component s = dotdot ∧ s.output.length ≤ 3 * s.nup
  · have h4' : component s = dotdot ∧ (copied s).output.length ≤ 3 * (copied s).nup := h4
    rw [if_pos h4, if_pos h4']
    exact Or.inr rfl
  have h4' : ¬ (component s = dotdot ∧ (copied s).output.length ≤ 3 * (copied s).nup) := h4
  rw [if_neg h4, if_neg h4']
  have hcop : (copied s).bare = (copied { s with errno := e }).bare := rfl
  by_cases h5 : component s = dotdot ∧ s.checkDir = false
  · have h5' : component s = dotdot ∧ (copied s).checkDir = false ∨ followSymlink atflags = false := Or.inl h5
    have h5'' : (decide (component s = dotdot)) = true ∧ (copied { s with errno := e }).checkDir = false :=
      ⟨decide_eq_true h5.1, h5.2⟩
    rw [if_pos h5', if_pos h5'']
    exact Or.inr (skipReadlink_bare hcop _ _ _)
  have h5' : ¬ (component s = dotdot ∧ (copied s).checkDir = false ∨ followSymlink atflags = false) := by
    rw [hf]
    rintro (h | h)
    · exact h5 h
    · cases h
  have h5'' : ¬ ((decide (component s = dotdot)) = true ∧ (copied { s with errno := e }).checkDir = false) :=
    fun h => h5 ⟨of_decide_eq_true h.1, h.2⟩
  rw [if_neg h5', if_neg h5'']
  have A : Asks atflags s := by
    refine { N with up := fun hc => ⟨Nat.not_le.mp fun hl => h4 ⟨hc, hl⟩, ?_⟩, follow := hf }
    by_contra hd
    exact h5 ⟨hc, Bool.not_eq_true _ ▸ hd⟩
  have C := copied_inBounds B
  obtain ⟨err, herr⟩ := hno (addName s.output (component s))
  have hget : getxattr h ((copied s).output ++ piece (copied s).output (component s)) (copied s).p = .error err := by
    have : h.getxattr ((copied s).output ++ piece (copied s).output (component s)) = .error err := herr
    rw [getxattr, this]
    rfl
  rw [getxattrTurn, hget]
  have hcop' : ({ copied s with errno := errnoSave } : Scan).bare = (copied { s with errno := e }).bare := rfl
  rcases readlink_agree h errnoSave (s := { copied s with errno := errnoSave }) C.size C.p_le hcop' rfl
    (copied_pos B N) (hne _) (component s).length (decide (component s = dotdot)) with ⟨hm, hn⟩ | he
  · exact Or.inl ⟨⟨A, hm⟩, hn⟩
  · exact Or.inr he

/-! ## The loops agree -/

def Ret.bare : Ret Scan → Ret Scan
  | .done s => .done s.bare
  | .fail e => .fail e
  | .fault => .fault
  | .unfinished => .unfinished

theorem skipped_bare (hs : s.bare = s'.bare) : (skipped s).bare = (skipped s').bare := by
  obtain ⟨e, rfl⟩ := bare_cases hs
  rfl

variable (errnoSave) in
theorem loop_agree (hno : ∀ p, ∃ e, h.getxattr p = .error e) (hne : ∀ p, h.readlink p ≠ .ok [])
    (hf : followSymlink atflags = true) : ∀ (fuel : Nat) {s s' : Scan}, InBounds s → s.bare = s'.bare →
    ((∃ i a, orbit (after h none errnoSave atflags) s i = some a ∧ Missing h atflags a) ∧
        nextLoop h errnoSave fuel s' = .fail .ENOENT) ∨
      (loop h none errnoSave atflags fuel s).bare = (nextLoop h errnoSave fuel s').bare
  | 0, s, s', _, _ => Or.inr rfl
  | fuel + 1, s, s', B, hs => by
    -- what the turns lead to is again alike, and the rest is the hypothesis of the induction
    have hgo : ∀ {s₁ s₁'}, after h none errnoSave atflags s = some s₁ → s₁.bare = s₁'.bare →
        ((∃ i a, orbit (after h none errnoSave atflags) s i = some a ∧ Missing h atflags a) ∧
            nextLoop h errnoSave fuel s₁' = .fail .ENOENT) ∨
          (loop h none errnoSave atflags fuel s₁).bare = (nextLoop h errnoSave fuel s₁').bare := by
      intro s₁ s₁' ha hb
      rcases loop_agree hno hne hf fuel (after_inBounds B ha) hb with ⟨⟨i, a, hi, hm⟩, hn⟩ | he
      · exact Or.inl ⟨⟨i + 1, a, (orbit_succ' ha i).trans hi, hm⟩, hn⟩
      · exact Or.inr he
    rw [loop, nextLoop]
    rcases turn_agree errnoSave hno hne hf B hs with ⟨hm, hn⟩ | he
    · rw [hn]
      exact Or.inl ⟨⟨0, s, rfl, hm⟩, rfl⟩
    · cases ht : turn h none errnoSave atflags s with
      | next s₁ =>
        rw [ht] at he
        cases hn : nextTurn h errnoSave s' with
        | next s₁' =>
          rw [hn] at he
          exact hgo (after_next ht) (skipped_bare (Turn.next.inj he))
        | _ =>
          rw [hn] at he
          cases he
      | restart s₁ =>
        rw [ht] at he
        cases hn : nextTurn h errnoSave s' with
        | restart s₁' =>
          rw [hn] at he
          exact hgo (after_restart ht) (Turn.restart.inj he)
        | _ =>
          rw [hn] at he
          cases he
      | leave s₁ =>
        rw [ht] at he
        cases hn : nextTurn h errnoSave s' with
        | leave s₁' =>
          rw [hn] at he
          exact Or.inr (congrArg Ret.done (Turn.leave.inj he))
        | _ =>
          rw [hn] at he
          cases he
      | fail e =>
        rw [ht] at he
        cases hn : nextTurn h errnoSave s' with
        | fail e' =>
          rw [hn] at he
          exact Or.inr (congrArg Ret.fail (Turn.fail.inj he))
        | _ =>
          rw [hn] at he
          cases he
      | fault =>
        rw [ht] at he
        cases hn : nextTurn h errnoSave s' with
        | fault => exact Or.inr rfl
        | _ =>
          rw [hn] at he
          cases he

/-! ## The calls agree -/

theorem absolute_bare (hs : s.bare = s'.bare) : absolute h s = absolute h s' := by
  obtain ⟨e, rfl⟩ := bare_cases hs
  rfl

theorem roomy_of_noValue (hno : ∀ p, ∃ e, h.getxattr p = .error e) (s : Scan) : Roomy h none atflags s where
  value v R := by
    obtain ⟨e, he⟩ := hno (addName s.output (component s))
    have hv := R.value
    rw [getxattr, he] at hv
    cases hv
  text t _ hlt := by
    have ht : seen none t = t := by
      rw [seen, show inchroot none = false from rfl, Bool.and_false, if_neg Bool.false_ne_true]
      rfl
    rw [ht]
    exact Nat.le_of_lt hlt

theorem nextRealpath_loop {path : Str} (h0 : path ≠ []) (hl : path.length < pathMax) (errno : Option Errno) (fuel : Nat) :
    nextRealpath h errno fuel path =
      match nextLoop h errno fuel (initial path errno) with
      | .done s => absolute h s
      | .fail e => .fail e
      | .fault => .fault
      | .unfinished => .unfinished := by
  have := List.length_pos_of_ne_nil h0
  have hn : strnlen path (pathMax + 1) = path.length := Nat.min_eq_left (by omega)
  rw [nextRealpath]
  simp only [hn]
  rw [if_neg (by omega), if_neg (by omega)]

variable (h atflags) in
theorem nextRealpath_refused {path : Str} (h0 : path = [] ∨ pathMax ≤ path.length) (errno : Option Errno) (fuel : Nat)
    (env : Option Str) : realpathat h env errno fuel path atflags = nextRealpath h errno fuel path := by
  unfold realpathat nextRealpath
  dsimp only
  by_cases hz : strnlen path (pathMax + 1) = 0
  · rw [if_pos hz, if_pos hz]
  · have hne : path ≠ [] := by
      rintro rfl
      exact hz rfl
    have hlen := h0.resolve_left hne
    have hl : pathMax ≤ strnlen path (pathMax + 1) := by
      unfold strnlen
      omega
    rw [if_neg hz, if_neg hz, if_pos hl, if_pos hl]

theorem nextRealpath_of_bare {path : Str} (h0 : path ≠ []) (hl : path.length < pathMax) {errno : Option Errno} {fuel : Nat}
    {env : Option Str} (he : (loop h env errno atflags fuel (initial path errno)).bare =
      (nextLoop h errno fuel (initial path errno)).bare) :
    realpathat h env errno fuel path atflags = nextRealpath h errno fuel path := by
  rw [realpathat_loop h0 hl, nextRealpath_loop h0 hl]
  cases hr : loop h env errno atflags fuel (initial path errno) with
  | done s =>
    rw [hr] at he
    cases hn : nextLoop h errno fuel (initial path errno) with
    | done s' =>
      rw [hn] at he
      exact absolute_bare (Ret.done.inj he)
    | _ =>
      rw [hn] at he
      cases he
  | fail e =>
    rw [hr] at he
    cases hn : nextLoop h errno fuel (initial path errno) with
    | fail e' =>
      rw [hn] at he
      exact congrArg Ret.fail (Ret.fail.inj he)
    | _ =>
      rw [hn] at he
      cases he
  | fault =>
    rw [hr] at he
    cases hn : nextLoop h errno fuel (initial path errno) with
    | fault => rfl
    | _ =>
      rw [hn] at he
      cases he
  | unfinished =>
    rw [hr] at he
    cases hn : nextLoop h errno fuel (initial path errno) with
    | unfinished => rfl
    | _ =>
      rw [hn] at he
      cases he

end

theorem FileSystem.readlink_ne_nil (fs : FileSystem) (cwd : Loc) (p : Str) : fs.readlink cwd p ≠ .ok [] := by
  intro he
  rw [FileSystem.readlink] at he
  cases hl : fs.lookup cwd false p with
  | error e =>
    rw [hl] at he
    cases he
  | ok ℓ =>
    simp only [hl, bind, Except.bind] at he
    split at he
    · rename_i t ht
      exact (fs.target_ok ht).1 (Except.ok.inj he)
    · cases he
    · cases he

section
variable {fs : FileSystem} (hattr : fs.NoAttr) (cwd : Loc) (fds : Int → Option Loc) (errno : Option Errno)
  {atflags : Word}
include hattr

variable (atflags) in
theorem stops_of_noAttr {path : Str} (hl : path.length < pathMax) :
    ∃ n, orbit (after (fs.host cwd fds) none errno atflags) (initial path errno) n = none := by
  apply (stops_iff_no_redirect_again hl).mpr
  rintro i j s - - - ⟨v, R⟩
  obtain ⟨e, he⟩ := FileSystem.getxattr_error hattr cwd (addName s.output (component s))
  have hv := R.value
  have hx : (fs.host cwd fds).getxattr (addName s.output (component s)) = .error e := he
  rw [getxattr, hx] at hv
  cases hv

/-- Where there are no attributes and no root directory, `__realpathat` returns what `next_realpath` does. -/
theorem next_realpath_agrees (hf : followSymlink atflags = true) (path : Str) : ∃ N, ∀ fuel, N ≤ fuel →
    Returns (nextRealpath (fs.host cwd fds) errno fuel path) ∧
    Returns (realpathat (fs.host cwd fds) none errno fuel path atflags) ∧
    (∀ r, nextRealpath (fs.host cwd fds) errno fuel path = .done r →
      realpathat (fs.host cwd fds) none errno fuel path atflags = .done r) ∧
    ((∀ i s, stateAt (fs.host cwd fds) none errno atflags path i = some s → ¬ Missing (fs.host cwd fds) atflags s) →
      realpathat (fs.host cwd fds) none errno fuel path atflags = nextRealpath (fs.host cwd fds) errno fuel path) := by
  have hno : ∀ p, ∃ e, (fs.host cwd fds).getxattr p = .error e := FileSystem.getxattr_error hattr cwd
  have hne : ∀ p, (fs.host cwd fds).readlink p ≠ .ok [] := fs.readlink_ne_nil cwd
  by_cases hstart : path = [] ∨ pathMax ≤ path.length
  · refine ⟨0, fun fuel _ => ?_⟩
    have heq := nextRealpath_refused (fs.host cwd fds) atflags hstart errno fuel none
    obtain ⟨e, he⟩ := realpathat_refused (fs.host cwd fds) none errno atflags hstart fuel
    refine ⟨?_, ?_, fun r hr => heq.trans hr, fun _ => heq⟩
    · rw [← heq, he]
      trivial
    · rw [he]
      trivial
  rw [not_or, Nat.not_le] at hstart
  obtain ⟨h0, hl⟩ := hstart
  have B := initial_inBounds hl errno
  obtain ⟨N, hN⟩ := stops_of_noAttr hattr cwd fds errno atflags hl
  refine ⟨N, fun fuel hfuel => ?_⟩
  have hret : Returns (realpathat (fs.host cwd fds) none errno fuel path atflags) := by
    apply returns_of_stop h0 hl (orbit_none_of_le hN hfuel)
    intro i s hs ht
    have K : Kept s (turn (fs.host cwd fds) none errno atflags s) :=
      turn_kept (orbit_inv B (fun _ _ => after_inBounds) hs) (roomy_of_noValue hno s)
    rw [ht] at K
    exact K
  rcases loop_agree errno hno hne hf fuel B rfl with ⟨⟨i, s, hs, hm⟩, hn⟩ | he
  · have hfail : nextRealpath (fs.host cwd fds) errno fuel path = .fail .ENOENT := by
      rw [nextRealpath_loop h0 hl, hn]
    refine ⟨?_, hret, ?_, ?_⟩
    · rw [hfail]
      trivial
    · rw [hfail]
      nofun
    · intro hall
      exact absurd hm (hall i s ((stateAt_of_short h0 hl i).trans hs))
  · have heq := nextRealpath_of_bare h0 hl he
    exact ⟨heq ▸ hret, hret, fun r hr => heq.trans hr, fun _ => heq⟩

end

def linkFs : FileSystem := .ofList [([['a']], .dir), ([['l']], .link ['a'])] (by decide)

theorem next_realpath_agrees_link :
    nextRealpath (linkFs.host [] fun _ => none) none 8 "/l".toList = .done "/a".toList ∧
    ∃ N, ∀ fuel, N ≤ fuel →
      Returns (nextRealpath (linkFs.host [] fun _ => none) none fuel "/l".toList) ∧
      Returns (realpathat (linkFs.host [] fun _ => none) none none fuel "/l".toList 0) ∧
      (∀ r, nextRealpath (linkFs.host [] fun _ => none) none fuel "/l".toList = .done r →
        realpathat (linkFs.host [] fun _ => none) none none fuel "/l".toList 0 = .done r) ∧
      ((∀ i s, stateAt (linkFs.host [] fun _ => none) none none 0 "/l".toList i = some s →
          ¬ Missing (linkFs.host [] fun _ => none) 0 s) →
        realpathat (linkFs.host [] fun _ => none) none none fuel "/l".toList 0 =
          nextRealpath (linkFs.host [] fun _ => none) none fuel "/l".toList) :=
  ⟨by decide +kernel, next_realpath_agrees (fun _ => rfl) [] (fun _ => none) none (by decide) "/l".toList⟩

end Iamroot
