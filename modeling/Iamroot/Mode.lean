import Iamroot.Lib.Run
import Iamroot.Files

/-!
# Emulated permissions

`chmod`, `fchmod`, `fchmodat`, `open`, `openat` and `mkdirat` give the host a
mode the real user can work with, and end with `__set_mode`, which stores the
requested mode when the host got another one and deletes what was stored when
it got the same. They end so whatever the call did: also when it failed, when
it was only forgiven, and when it opened a file that was already there.
-/

namespace Iamroot

def oCreat : Word := 0o100

def oExcl : Word := 0o200

def oNofollow : Word := 0o400000

def oTmpfile : Word := 0o20200000

def needsMode (oflags : Word) : Bool := oflags &&& oCreat != 0 || oflags &&& oTmpfile != 0

def warnAndSetUserMode (mode user : Word) : Word :=
  let mode := if mode &&& user ≠ user then mode ||| user else mode
  let mode := if mode &&& sIsuid ≠ 0 then mode &&& ~~~sIsuid else mode
  if mode &&& sIsgid ≠ 0 then mode &&& ~~~sIsgid else mode

def isDirectory (fs : Files) (path : Str) : Bool :=
  match fs.names path with
  | some i => (fs.inode i).isDir
  | none => false

/-- `__warn_if_insuffisant_user_mode`, and its `f` form with the inode at hand. -/
def warnIfInsuffisantUserMode (dir : Bool) (mode : Word) : Word :=
  warnAndSetUserMode mode (if dir then 0o700 else 0o600)

/-! ## The host's calls -/

def Inode.chmod (mode : Word) (n : Inode) : Inode := { n with mode := (n.mode &&& sIfmt) ||| (mode &&& 0o7777) }

def nextChmod (fs : Files) (i : Ino) (mode : Word) (v : Option Errno) : Files × Option Errno :=
  match v with
  | some e => (fs, some e)
  | none => (fs.modify i (Inode.chmod mode), none)

def nextOpen (fs : Files) (path : Str) (oflags mode : Word) (v : Option Errno) : Files × Int :=
  match v with
  | some _ => (fs, -1)
  | none =>
    let mode := sIfreg ||| (mode &&& 0o7777 &&& ~~~fs.umask)
    match fs.names path with
    | some i =>
      if oflags &&& oTmpfile = oTmpfile then ((fs.create none mode).opened fs.nextIno [], fs.nextFd)
      else if oflags &&& oCreat ≠ 0 ∧ oflags &&& oExcl ≠ 0 then (fs, -1)
      else (fs.opened i path, fs.nextFd)
    | none =>
      if oflags &&& oCreat ≠ 0 ∧ path ≠ [] then ((fs.create (some path) mode).opened fs.nextIno path, fs.nextFd)
      else (fs, -1)

def nextMkdirat (fs : Files) (path : Str) (mode : Word) (v : Option Errno) : Files × Int :=
  match v with
  | some _ => (fs, -1)
  | none =>
    match fs.names path with
    | some _ => (fs, -1)
    | none => if path = [] then (fs, -1) else (fs.create (some path) (sIfdir ||| (mode &&& 0o1777 &&& ~~~fs.umask)), 0)

/-! ## The wrappers -/

section
variable (resolve : Resolve) (fs : Files)

/-- The common body: the host changes `target`, the attribute goes to `buf`. -/
def chmodBuf (target : Option Ino) (dir : Bool) (buf : Str) (oldmode : Word) (v : Option Errno) : Files × Int :=
  let mode := warnIfInsuffisantUserMode dir oldmode
  let (fs, err) := match target with
    | some i => nextChmod fs i mode v
    | none => (fs, some .ENOENT)
  (setMode fs buf oldmode mode, forgiven err)

def chmod (path : Str) (mode : Word) (v : Option Errno) : Files × Int :=
  match resolve fs atFdcwd path 0 0 with
  | none => (fs, -1)
  | some buf => chmodBuf fs (fs.names buf) (isDirectory fs buf) buf mode v

def fchmodat (dfd : Int) (path : Str) (mode atflags : Word) (v : Option Errno) : Files × Int :=
  match resolve fs dfd path atflags 0 with
  | none => (fs, -1)
  | some buf => chmodBuf fs (fs.names buf) (isDirectory fs buf) buf mode v

def fchmod (fd : Nat) (mode : Word) (v : Option Errno) : Files × Int :=
  match fs.fds fd with
  | none => (fs, -1)
  | some (i, buf) => chmodBuf fs (some i) (fs.inode i).isDir buf mode v

/-- The mode `open` asks for, and the one it hands to the host. -/
def openModes (buf : Str) (oflags mode : Word) : Word × Word :=
  let oldmode := if needsMode oflags then mode else 0
  (oldmode, if oflags &&& oCreat ≠ 0 then warnIfInsuffisantUserMode (isDirectory fs buf) oldmode else oldmode)

def openBuf (buf : Str) (oflags mode : Word) (v : Option Errno) : Files × Int :=
  let m := openModes fs buf oflags mode
  let (fs, ret) := nextOpen fs buf oflags m.2 v
  (setMode fs buf m.1 m.2, ret)

def open_ (path : Str) (oflags mode : Word) (v : Option Errno) : Files × Int :=
  match resolve fs atFdcwd path (if oflags &&& oNofollow ≠ 0 then atSymlinkNofollow else 0) 0 with
  | none => (fs, -1)
  | some buf => openBuf fs buf oflags mode v

def openat (dfd : Int) (path : Str) (oflags mode : Word) (v : Option Errno) : Files × Int :=
  match resolve fs dfd path (if oflags &&& oNofollow ≠ 0 then atSymlinkNofollow else 0) 0 with
  | none => (fs, -1)
  | some buf => openBuf fs buf oflags mode v

def mkdirBuf (buf : Str) (oldmode : Word) (v : Option Errno) : Files × Int :=
  let mode := warnIfInsuffisantUserMode (isDirectory fs buf) oldmode
  let (fs, ret) := nextMkdirat fs buf mode v
  (setMode fs buf oldmode mode, ret)

def mkdirat (dfd : Int) (path : Str) (mode : Word) (v : Option Errno) : Files × Int :=
  match resolve fs dfd path 0 0 with
  | none => (fs, -1)
  | some buf => mkdirBuf fs buf mode v

end

inductive ModeCall where
  | chmod (path : Str) (mode : Word)
  | fchmod (fd : Nat) (mode : Word)
  | fchmodat (dfd : Int) (path : Str) (mode atflags : Word)
  | open_ (path : Str) (oflags mode : Word)
  | openat (dfd : Int) (path : Str) (oflags mode : Word)
  | mkdirat (dfd : Int) (path : Str) (mode : Word)

def ModeCall.run (resolve : Resolve) (fs : Files) (v : Option Errno) : ModeCall → Files × Int
  | chmod path mode => Iamroot.chmod resolve fs path mode v
  | fchmod fd mode => Iamroot.fchmod fs fd mode v
  | fchmodat dfd path mode atflags => Iamroot.fchmodat resolve fs dfd path mode atflags v
  | open_ path oflags mode => Iamroot.open_ resolve fs path oflags mode v
  | openat dfd path oflags mode => Iamroot.openat resolve fs dfd path oflags mode v
  | mkdirat dfd path mode => Iamroot.mkdirat resolve fs dfd path mode v

inductive Resolved where
  | chmod (target : Option Ino) (dir : Bool) (buf : Str) (mode : Word)
  | open_ (buf : Str) (oflags mode : Word)
  | mkdir (buf : Str) (mode : Word)

def Resolved.run (fs : Files) (v : Option Errno) : Resolved → Files × Int
  | chmod target dir buf mode => chmodBuf fs target dir buf mode v
  | open_ buf oflags mode => openBuf fs buf oflags mode v
  | mkdir buf mode => mkdirBuf fs buf mode v

def ModeCall.resolved (resolve : Resolve) (fs : Files) : ModeCall → Option Resolved
  | chmod path mode =>
    (resolve fs atFdcwd path 0 0).map fun buf => .chmod (fs.names buf) (isDirectory fs buf) buf mode
  | fchmod fd mode => (fs.fds fd).map fun f => .chmod (some f.1) (fs.inode f.1).isDir f.2 mode
  | fchmodat dfd path mode atflags =>
    (resolve fs dfd path atflags 0).map fun buf => .chmod (fs.names buf) (isDirectory fs buf) buf mode
  | open_ path oflags mode =>
    (resolve fs atFdcwd path (if oflags &&& oNofollow ≠ 0 then atSymlinkNofollow else 0) 0).map fun buf =>
      .open_ buf oflags mode
  | openat dfd path oflags mode =>
    (resolve fs dfd path (if oflags &&& oNofollow ≠ 0 then atSymlinkNofollow else 0) 0).map fun buf =>
      .open_ buf oflags mode
  | mkdirat dfd path mode => (resolve fs dfd path 0 0).map fun buf => .mkdir buf mode

theorem ModeCall.run_eq (resolve : Resolve) (fs : Files) (v : Option Errno) (c : ModeCall) :
    c.run resolve fs v = match c.resolved resolve fs with
      | none => (fs, -1)
      | some r => r.run fs v := by
  cases c with
  | chmod path mode => simp only [run, resolved, Iamroot.chmod]; split <;> simp_all [Resolved.run]
  | fchmod fd mode => simp only [run, resolved, Iamroot.fchmod]; split <;> simp_all [Resolved.run]
  | fchmodat dfd path mode atflags => simp only [run, resolved, Iamroot.fchmodat]; split <;> simp_all [Resolved.run]
  | open_ path oflags mode => simp only [run, resolved, Iamroot.open_]; split <;> simp_all [Resolved.run]
  | openat dfd path oflags mode => simp only [run, resolved, Iamroot.openat]; split <;> simp_all [Resolved.run]
  | mkdirat dfd path mode => simp only [run, resolved, Iamroot.mkdirat]; split <;> simp_all [Resolved.run]

/-! ## What the permissions should be -/

abbrev Modes := Ino → Word

/-- The bits of the last successful `chmod`, or of the creation: what was asked
for, less the guest's `umask`. -/
def Resolved.record (gumask : Word) (fs : Files) (r : Files × Int) (m : Modes) : Resolved → Modes
  | chmod (some i) _ _ mode => if r.2 = 0 then Function.update m i (perm mode) else m
  | chmod none _ _ _ => m
  | open_ buf oflags mode =>
    if r.1.nextIno ≠ fs.nextIno then
      Function.update m fs.nextIno (perm ((openModes fs buf oflags mode).1 &&& ~~~gumask))
    else m
  | mkdir _ mode => if r.1.nextIno ≠ fs.nextIno then Function.update m fs.nextIno (perm (mode &&& ~~~gumask)) else m

abbrev ModeState := Files × Modes

def modeStep (resolve : Resolve) (gumask : Word) (s : ModeState) (a : ModeCall × Option Errno) : ModeState :=
  let r := a.1.run resolve s.1 a.2
  (r.1, match a.1.resolved resolve s.1 with
    | none => s.2
    | some c => c.record gumask s.1 r s.2)

def seenPerm (fs : Files) (i : Ino) : Word := perm (fs.inode i).seen.mode

def afterSet (host old new : Word) : Word := perm (if old = new ∨ old = minusOne then host else old)

def Resolved.Keeps (gumask : Word) (fs : Files) (v : Option Errno) : Resolved → Prop
  | chmod none _ _ _ => True
  | chmod (some i) dir buf mode =>
    let host := warnIfInsuffisantUserMode dir mode
    match v, fs.names buf with
    | none, some _ => True
    | none, none => (if (fs.inode i).get .mode ≠ minusOne then seenPerm fs i else perm host) = perm mode
    | some e, some _ => afterSet (fs.inode i).mode mode host = if e = .EPERM then perm mode else seenPerm fs i
    | some e, none => e = .EPERM → seenPerm fs i = perm mode
  | open_ buf oflags mode =>
    let m := openModes fs buf oflags mode
    match fs.names buf with
    | some i => afterSet (fs.inode i).mode m.1 m.2 = seenPerm fs i ∧
        (v = none → oflags &&& oTmpfile = oTmpfile → perm (m.2 &&& ~~~fs.umask) = perm (m.1 &&& ~~~gumask))
    | none => v = none → oflags &&& oCreat ≠ 0 → buf ≠ [] →
        afterSet (m.2 &&& ~~~fs.umask) m.1 m.2 = perm (m.1 &&& ~~~gumask)
  | mkdir buf mode =>
    let host := warnIfInsuffisantUserMode (isDirectory fs buf) mode
    match fs.names buf with
    | some i => afterSet (fs.inode i).mode mode host = seenPerm fs i
    | none => v = none → buf ≠ [] → afterSet (host &&& ~~~fs.umask) mode host = perm (mode &&& ~~~gumask)

/-! ## Bits -/

theorem perm_fmt_or (x m : Word) : perm ((x &&& sIfmt) ||| m) = perm m := by
  unfold perm sIfmt
  rw [BitVec.and_or_distrib_right, BitVec.and_assoc]
  simp

theorem perm_create {fmt mask : Word} (hf : fmt &&& 0o777 = 0) (hm : mask &&& 0o777 = 0o777) (m u : Word) :
    perm (fmt ||| (m &&& mask &&& u)) = perm (m &&& u) := by
  unfold perm
  rw [BitVec.and_or_distrib_right, hf, BitVec.and_assoc, BitVec.and_assoc, BitVec.and_comm u, ← BitVec.and_assoc mask,
    hm, BitVec.and_comm _ u, ← BitVec.and_assoc]
  simp

theorem perm_and_7777 (m : Word) : perm (m &&& 0o7777) = perm m := by
  unfold perm
  rw [BitVec.and_assoc]
  rfl

theorem perm_warn_all (dir : Bool) : perm (warnIfInsuffisantUserMode dir minusOne) = perm minusOne := by
  cases dir <;> decide

theorem afterSet_congr {h h' : Word} (e : perm h = perm h') (old new : Word) : afterSet h old new = afterSet h' old new := by
  unfold afterSet
  split
  · exact e
  · rfl

theorem afterSet_chmod (x mode : Word) (dir : Bool) :
    afterSet ((x &&& sIfmt) ||| (warnIfInsuffisantUserMode dir mode &&& 0o7777)) mode
      (warnIfInsuffisantUserMode dir mode) = perm mode := by
  unfold afterSet
  split
  · rename_i h
    rw [perm_fmt_or, perm_and_7777]
    rcases h with h | h
    · rw [← h]
    · rw [h, perm_warn_all]
  · rfl

theorem Inode.perm_seen (n : Inode) :
    perm n.seen.mode = if n.get .mode ≠ minusOne then perm (n.get .mode) else perm n.mode := by
  rw [Inode.seen, Stat.withGid_mode, Stat.withUid_mode, Stat.withMode]
  split
  · exact perm_fmt_or _ _
  · rfl

theorem seenPerm_setMode (fs : Files) (buf : Str) (old new : Word) (j : Ino) :
    seenPerm (setMode fs buf old new) j =
      if fs.names buf = some j then afterSet (fs.inode j).mode old new else seenPerm fs j := by
  unfold seenPerm setMode
  rw [setAttr_inode]
  split
  · rw [Inode.perm_seen, Inode.get_set, afterSet]
    by_cases h : old = new
    · simp [h, Inode.set]
    · by_cases h' : old = minusOne
      · simp [h', Inode.set]
      · simp [h, h']
  · rfl

/-! ## One call -/

def ModesSeen (fs : Files) (m : Modes) : Prop := ∀ i, i < fs.nextIno → seenPerm fs i = m i

/-- Where only the file `i` changes, only the file `i` has to be looked at. -/
theorem forall_iff_of_frame {n : Nat} {f g m : Nat → Word} (h : ∀ j, j < n → f j = m j) {i : Nat} (hi : i < n)
    (hf : ∀ j, j < n → j ≠ i → g j = f j) : (∀ j, j < n → g j = m j) ↔ g i = m i := by
  refine ⟨fun h' => h' i hi, fun h' j hj => ?_⟩
  by_cases e : j = i
  · rw [e]; exact h'
  · rw [hf j hj e]; exact h j hj

theorem modesSeen_iff_of_frame {fs fs' : Files} {m m' : Modes} (h : ModesSeen fs m) {i : Ino}
    (hi : i < fs.nextIno) (hn : fs'.nextIno = fs.nextIno)
    (hfs : ∀ j, j < fs.nextIno → j ≠ i → seenPerm fs' j = seenPerm fs j) (hm : ∀ j, j ≠ i → m' j = m j) :
    ModesSeen fs' m' ↔ seenPerm fs' i = m' i := by
  have h' := forall_iff_of_frame (g := seenPerm fs') (m := m')
    (f := fun j => if j = i then m' i else seenPerm fs j) (fun j hj => ?_) hi fun j hj e => ?_
  · unfold ModesSeen; rw [hn]; exact h'
  · by_cases e : j = i
    · rw [if_pos e, e]
    · rw [if_neg e, hm j e]; exact h j hj
  · rw [if_neg e]; exact hfs j hj e

theorem modesSeen_create {fs fs' : Files} {m : Modes} {w : Word} (hn : fs'.nextIno = fs.nextIno + 1) :
    ModesSeen fs' (Function.update m fs.nextIno w) ↔
      (∀ j, j < fs.nextIno → seenPerm fs' j = m j) ∧ seenPerm fs' fs.nextIno = w := by
  constructor
  · intro h
    refine ⟨fun j hj => ?_, ?_⟩
    · have := h j (hn ▸ Nat.lt_succ_of_lt hj)
      rwa [Function.update_of_ne (Nat.ne_of_lt hj)] at this
    · have := h fs.nextIno (hn ▸ Nat.lt_succ_self _)
      rwa [Function.update_self] at this
  · rintro ⟨h1, h2⟩ j hj
    rcases Nat.lt_or_ge j fs.nextIno with h | h
    · rw [Function.update_of_ne (Nat.ne_of_lt h)]; exact h1 j h
    · have e : j = fs.nextIno := Nat.le_antisymm (Nat.lt_succ_iff.mp (Nat.lt_of_lt_of_eq hj hn)) h
      rw [e, Function.update_self]; exact h2

theorem seenPerm_modify_ne (fs : Files) {i j : Ino} (h : j ≠ i) (f : Inode → Inode) :
    seenPerm (fs.modify i f) j = seenPerm fs j := by
  unfold seenPerm; rw [Files.modify_ne fs h]

theorem setMode_none {fs : Files} {buf : Str} (h : fs.names buf = none) (old new : Word) : setMode fs buf old new = fs := by
  unfold setMode setAttr; rw [h]

theorem chmodBuf_done (fs : Files) (i : Ino) (dir : Bool) (buf : Str) (mode : Word) :
    chmodBuf fs (some i) dir buf mode none =
      (setMode (fs.modify i (Inode.chmod (warnIfInsuffisantUserMode dir mode))) buf mode
        (warnIfInsuffisantUserMode dir mode), 0) := rfl

theorem chmodBuf_fail (fs : Files) (i : Ino) (dir : Bool) (buf : Str) (mode : Word) (e : Errno) :
    chmodBuf fs (some i) dir buf mode (some e) =
      (setMode fs buf mode (warnIfInsuffisantUserMode dir mode), if e = .EPERM then 0 else -1) := rfl

theorem chmodBuf_nextIno (fs : Files) (t : Option Ino) (dir : Bool) (buf : Str) (mode : Word) (v : Option Errno) :
    (chmodBuf fs t dir buf mode v).1.nextIno = fs.nextIno := by
  cases t with
  | none => exact setAttr_nextIno ..
  | some i =>
    cases v with
    | none => rw [chmodBuf_done]; exact setAttr_nextIno ..
    | some e => rw [chmodBuf_fail]; exact setAttr_nextIno ..

theorem names_ne {o : Option Ino} {i j : Ino} (h : o = some i ∨ o = none) (hj : j ≠ i) : ¬ o = some j := by
  rintro rfl
  rcases h with h | h
  · exact hj (Option.some.inj h)
  · cases h

theorem seenPerm_chmod (fs : Files) (i : Ino) (dir : Bool) {buf : Str}
    (ht : fs.names buf = some i ∨ fs.names buf = none) (mode : Word) :
    seenPerm (chmodBuf fs (some i) dir buf mode none).1 i =
      if fs.names buf = some i then perm mode
      else if (fs.inode i).get .mode ≠ minusOne then seenPerm fs i
      else perm (warnIfInsuffisantUserMode dir mode) := by
  rw [chmodBuf_done, seenPerm_setMode, Files.modify_names, Files.modify_self]
  rcases ht with hb | hb
  · rw [if_pos hb, if_pos hb]
    exact afterSet_chmod _ mode dir
  · have hb' : ¬ fs.names buf = some i := by rw [hb]; exact nofun
    rw [if_neg hb', if_neg hb', seenPerm, Files.modify_self, Inode.perm_seen, seenPerm, Inode.perm_seen]
    have hg : (Inode.chmod (warnIfInsuffisantUserMode dir mode) (fs.inode i)).get .mode = (fs.inode i).get .mode := rfl
    have hp : perm (Inode.chmod (warnIfInsuffisantUserMode dir mode) (fs.inode i)).mode =
        perm (warnIfInsuffisantUserMode dir mode) := (perm_fmt_or _ _).trans (perm_and_7777 _)
    rw [hg, hp]
    by_cases h : (fs.inode i).get .mode = minusOne
    · rw [if_neg (not_not_intro h), if_neg (not_not_intro h)]
    · rw [if_pos h, if_pos h, if_pos h]

theorem seenPerm_chmod_ne {fs : Files} {i j : Ino} {buf : Str} (ht : fs.names buf = some i ∨ fs.names buf = none)
    (hj : j ≠ i) (dir : Bool) (mode : Word) (v : Option Errno) :
    seenPerm (chmodBuf fs (some i) dir buf mode v).1 j = seenPerm fs j := by
  cases v with
  | none => rw [chmodBuf_done, seenPerm_setMode, Files.modify_names, if_neg (names_ne ht hj), seenPerm_modify_ne fs hj]
  | some e => rw [chmodBuf_fail, seenPerm_setMode, if_neg (names_ne ht hj)]

theorem chmod_keeps {fs : Files} {m : Modes} (h : ModesSeen fs m) {t : Option Ino} {buf : Str}
    (hi : ∀ i, t = some i → i < fs.nextIno) (ht : fs.names buf = t ∨ fs.names buf = none) (g : Word) (dir : Bool)
    (mode : Word) (v : Option Errno) :
    ModesSeen (chmodBuf fs t dir buf mode v).1
        ((Resolved.chmod t dir buf mode).record g fs (chmodBuf fs t dir buf mode v) m) ↔
      (Resolved.chmod t dir buf mode).Keeps g fs v := by
  cases t with
  | none =>
    have hb : fs.names buf = none := ht.elim id id
    have hfs : (chmodBuf fs none dir buf mode v).1 = fs := setMode_none hb _ _
    rw [hfs]
    exact ⟨fun _ => trivial, fun _ => h⟩
  | some i =>
    have hi := hi i rfl
    have hrec : ∀ (r : Files × Int) (j : Ino), j ≠ i → (Resolved.chmod (some i) dir buf mode).record g fs r m j = m j := by
      intro r j hj
      simp only [Resolved.record]
      split
      · exact Function.update_of_ne hj _ _
      · rfl
    rw [modesSeen_iff_of_frame h hi (chmodBuf_nextIno ..) (fun j _ hj => seenPerm_chmod_ne ht hj dir mode v) (hrec _)]
    have hmi : seenPerm fs i = m i := h i hi
    cases v with
    | none =>
      rw [seenPerm_chmod fs i dir ht, chmodBuf_done]
      simp only [Resolved.record, Resolved.Keeps, if_true, Function.update_self]
      rcases ht with hb | hb <;> simp [hb]
    | some e =>
      rw [chmodBuf_fail, seenPerm_setMode]
      simp only [Resolved.record, Resolved.Keeps]
      by_cases he : e = .EPERM
      · rcases ht with hb | hb <;> simp [hb, he]
      · rcases ht with hb | hb <;> simp [hb, he, hmi]

/-! ## Opening and creating -/

/-- What the host's `open` can do: make an unnamed file, make the file that was
missing, or leave the files and the names as they are. -/
theorem nextOpen_cases (fs : Files) (buf : Str) (oflags mode : Word) (v : Option Errno) :
    let host := sIfreg ||| (mode &&& 0o7777 &&& ~~~fs.umask)
    let r := nextOpen fs buf oflags mode v
    (∃ i, fs.names buf = some i ∧ v = none ∧ oflags &&& oTmpfile = oTmpfile ∧
      r.1 = (fs.create none host).opened fs.nextIno []) ∨
    (fs.names buf = none ∧ v = none ∧ oflags &&& oCreat ≠ 0 ∧ buf ≠ [] ∧
      r.1 = (fs.create (some buf) host).opened fs.nextIno buf) ∨
    (r.1.inode = fs.inode ∧ r.1.names = fs.names ∧ r.1.nextIno = fs.nextIno ∧
      (∀ i, fs.names buf = some i → v = none → ¬ oflags &&& oTmpfile = oTmpfile) ∧
      (fs.names buf = none → v = none → oflags &&& oCreat ≠ 0 → buf = [])) := by
  intro host r
  cases v with
  | some e => exact Or.inr (Or.inr ⟨rfl, rfl, rfl, fun _ _ => nofun, fun _ => nofun⟩)
  | none =>
    cases hn : fs.names buf with
    | some i =>
      by_cases ht : oflags &&& oTmpfile = oTmpfile
      · left
        exact ⟨i, rfl, rfl, ht, by simp only [r, nextOpen, hn, if_pos ht]; rfl⟩
      · right; right
        by_cases hx : oflags &&& oCreat ≠ 0 ∧ oflags &&& oExcl ≠ 0
        · simp only [r, nextOpen, hn, if_neg ht, if_pos hx]
          exact ⟨trivial, trivial, trivial, fun _ _ _ => ht, nofun⟩
        · simp only [r, nextOpen, hn, if_neg ht, if_neg hx]
          exact ⟨rfl, rfl, rfl, fun _ _ _ => ht, nofun⟩
    | none =>
      by_cases hc : oflags &&& oCreat ≠ 0 ∧ buf ≠ []
      · right; left
        exact ⟨rfl, rfl, hc.1, hc.2, by simp only [r, nextOpen, hn, if_pos hc]; rfl⟩
      · right; right
        simp only [r, nextOpen, hn, if_neg hc]
        exact ⟨trivial, trivial, trivial, fun _ => nofun, fun _ _ h => not_not.mp fun hb => hc ⟨h, hb⟩⟩

theorem seenPerm_opened (fs : Files) (i : Ino) (path : Str) (j : Ino) :
    seenPerm (fs.opened i path) j = seenPerm fs j := rfl

theorem seenPerm_create (fs : Files) (path : Option Str) (mode : Word) (j : Ino) :
    seenPerm (fs.create path mode) j = if j = fs.nextIno then perm mode else seenPerm fs j := by
  by_cases h : j = fs.nextIno
  · have hj : (fs.create path mode).inode j = { mode := mode, uid := 0, gid := 0, attr := fun _ => none } := by
      rw [h]; exact Function.update_self ..
    rw [if_pos h, seenPerm, hj, Inode.perm_seen]; rfl
  · have hj : (fs.create path mode).inode j = fs.inode j := Function.update_of_ne h ..
    rw [if_neg h, seenPerm, seenPerm, hj]

/-- `__set_mode` on a file that was there: the bits stay exactly when it leaves what was seen. -/
theorem setMode_keeps {fs fs' : Files} {m : Modes} (h : ModesSeen fs m) {buf : Str} {i : Ino}
    (hb : fs'.names buf = some i) (hi : i < fs.nextIno) (hj : ∀ j, j < fs.nextIno → fs'.inode j = fs.inode j)
    (old new : Word) :
    (∀ j, j < fs.nextIno → seenPerm (setMode fs' buf old new) j = m j) ↔
      afterSet (fs.inode i).mode old new = seenPerm fs i := by
  have hs : ∀ j, j < fs.nextIno → seenPerm fs' j = seenPerm fs j := fun j hlt => by
    unfold seenPerm; rw [hj j hlt]
  have hset : seenPerm (setMode fs' buf old new) i = afterSet (fs.inode i).mode old new := by
    rw [seenPerm_setMode, if_pos hb, hj i hi]
  rw [forall_iff_of_frame h hi fun j hlt hne => ?_, hset, h i hi]
  rw [seenPerm_setMode, if_neg (names_ne (Or.inl hb) hne)]
  exact hs j hlt

theorem perm_sIfreg (m u : Word) : perm (sIfreg ||| (m &&& 0o7777 &&& u)) = perm (m &&& u) :=
  perm_create (by decide) (by decide) m u

theorem perm_sIfdir (m u : Word) : perm (sIfdir ||| (m &&& 0o1777 &&& u)) = perm (m &&& u) :=
  perm_create (by decide) (by decide) m u

theorem create_keeps {fs fs' : Files} {m : Modes} (h : ModesSeen fs m) {buf : Str} {fmt mode old new : Word}
    (hp : perm fmt = perm mode)
    (hfs : fs'.inode = (fs.create (some buf) fmt).inode) (hnames : fs'.names = (fs.create (some buf) fmt).names) (w : Word) :
    ((∀ j, j < fs.nextIno → seenPerm (setMode fs' buf old new) j = m j) ∧
      seenPerm (setMode fs' buf old new) fs.nextIno = w) ↔ afterSet mode old new = w := by
  have hnew : fs'.names buf = some fs.nextIno := by rw [hnames]; exact Function.update_self _ _ _
  have hold : ∀ j, j < fs.nextIno → seenPerm (setMode fs' buf old new) j = m j := by
    intro j hj
    rw [seenPerm_setMode, if_neg (names_ne (Or.inl hnew) (Nat.ne_of_lt hj)), ← h j hj]
    unfold seenPerm
    rw [hfs]
    have := seenPerm_create fs (some buf) fmt j
    rwa [if_neg (Nat.ne_of_lt hj)] at this
  have hmode : (fs'.inode fs.nextIno).mode = fmt := by
    rw [hfs]; simp [Files.create]
  rw [seenPerm_setMode, if_pos hnew, hmode, afterSet_congr hp]
  exact ⟨fun h => h.2, fun h => ⟨hold, h⟩⟩

theorem open_keeps {fs : Files} {m : Modes} (h : ModesSeen fs m) (hok : fs.Ok) (g : Word) (buf : Str)
    (oflags mode : Word) (v : Option Errno) :
    ModesSeen (openBuf fs buf oflags mode v).1
        ((Resolved.open_ buf oflags mode).record g fs (openBuf fs buf oflags mode v) m) ↔
      (Resolved.open_ buf oflags mode).Keeps g fs v := by
  have hset : (openBuf fs buf oflags mode v).1 =
      setMode (nextOpen fs buf oflags (openModes fs buf oflags mode).2 v).1 buf (openModes fs buf oflags mode).1
        (openModes fs buf oflags mode).2 := rfl
  have hnext : (openBuf fs buf oflags mode v).1.nextIno =
      (nextOpen fs buf oflags (openModes fs buf oflags mode).2 v).1.nextIno := setAttr_nextIno ..
  simp only [Resolved.record, Resolved.Keeps, hnext]
  generalize openModes fs buf oflags mode = om at *
  rcases nextOpen_cases fs buf oflags om.2 v with ⟨i, hb, hv, ht, hr⟩ | ⟨hb, hv, hc, hne, hr⟩ | ⟨hin, hnm, hno, ht, hc⟩
  · -- an unnamed file, and the attribute of the directory it was asked in
    have hn : (nextOpen fs buf oflags om.2 v).1.nextIno = fs.nextIno + 1 := by rw [hr]; rfl
    have hn' : (openBuf fs buf oflags mode v).1.nextIno = fs.nextIno + 1 := hnext.trans hn
    have hi := hok.names_lt hb
    have hb' : (nextOpen fs buf oflags om.2 v).1.names buf = some i := by rw [hr]; exact hb
    rw [if_pos (by rw [hn]; exact Nat.succ_ne_self _), modesSeen_create hn', hset,
      setMode_keeps h hb' hi fun j hj => ?_]
    · rw [seenPerm_setMode, if_neg (names_ne (Or.inl hb') (Nat.ne_of_gt hi)), hr, seenPerm_opened, seenPerm_create,
        if_pos rfl, perm_sIfreg, hb]
      simp only [hv, ht, true_implies]
    · rw [hr]; simp [Files.opened, Files.create, Nat.ne_of_lt hj]
  · have hn : (nextOpen fs buf oflags om.2 v).1.nextIno = fs.nextIno + 1 := by rw [hr]; rfl
    have hn' : (openBuf fs buf oflags mode v).1.nextIno = fs.nextIno + 1 := hnext.trans hn
    rw [if_pos (by rw [hn]; exact Nat.succ_ne_self _), modesSeen_create hn', hset,
      create_keeps h (perm_sIfreg om.2 (~~~fs.umask)) (by rw [hr]; rfl) (by rw [hr]; rfl), hb]
    simp only [hv, ne_eq, hc, hne, not_false_eq_true, true_implies]
  · rw [if_neg (by rw [hno]; exact fun h => h rfl)]
    unfold ModesSeen
    rw [hnext, hno, hset]
    cases hb : fs.names buf with
    | some i =>
      have hi := hok.names_lt hb
      have hb' : (nextOpen fs buf oflags om.2 v).1.names buf = some i := by rw [hnm]; exact hb
      rw [setMode_keeps h hb' hi fun j _ => by rw [hin]]
      simp only [iff_self_and]
      exact fun _ hv' ht' => absurd ht' (ht i hb hv')
    | none =>
      rw [setMode_none (by rw [hnm]; exact hb)]
      refine ⟨fun _ hv' hc' hne' => absurd (hc hb hv' hc') hne', fun _ j hj => ?_⟩
      have := h j hj
      unfold seenPerm at this ⊢
      rw [hin]; exact this

theorem nextMkdirat_cases (fs : Files) (buf : Str) (mode : Word) (v : Option Errno) :
    let r := nextMkdirat fs buf mode v
    (fs.names buf = none ∧ v = none ∧ buf ≠ [] ∧
      r.1 = fs.create (some buf) (sIfdir ||| (mode &&& 0o1777 &&& ~~~fs.umask))) ∨
    (r.1 = fs ∧ (fs.names buf = none → v = none → buf = [])) := by
  intro r
  cases v with
  | some e => exact Or.inr ⟨rfl, fun _ => nofun⟩
  | none =>
    cases hn : fs.names buf with
    | some i =>
      right
      simp only [r, nextMkdirat, hn]
      exact ⟨trivial, nofun⟩
    | none =>
      by_cases hb : buf = []
      · right
        simp only [r, nextMkdirat, hn, if_pos hb]
        exact ⟨trivial, fun _ _ => hb⟩
      · left
        exact ⟨rfl, rfl, hb, by simp only [r, nextMkdirat, hn, if_neg hb]⟩

theorem mkdir_keeps {fs : Files} {m : Modes} (h : ModesSeen fs m) (hok : fs.Ok) (g : Word) (buf : Str)
    (mode : Word) (v : Option Errno) :
    ModesSeen (mkdirBuf fs buf mode v).1 ((Resolved.mkdir buf mode).record g fs (mkdirBuf fs buf mode v) m) ↔
      (Resolved.mkdir buf mode).Keeps g fs v := by
  have hset : (mkdirBuf fs buf mode v).1 =
      setMode (nextMkdirat fs buf (warnIfInsuffisantUserMode (isDirectory fs buf) mode) v).1 buf mode
        (warnIfInsuffisantUserMode (isDirectory fs buf) mode) := rfl
  have hnext : (mkdirBuf fs buf mode v).1.nextIno =
      (nextMkdirat fs buf (warnIfInsuffisantUserMode (isDirectory fs buf) mode) v).1.nextIno := setAttr_nextIno ..
  simp only [Resolved.record, Resolved.Keeps, hnext]
  generalize warnIfInsuffisantUserMode (isDirectory fs buf) mode = host at *
  rcases nextMkdirat_cases fs buf host v with ⟨hb, hv, hne, hr⟩ | ⟨hr, hc⟩
  · have hn : (nextMkdirat fs buf host v).1.nextIno = fs.nextIno + 1 := by rw [hr]; rfl
    rw [if_pos (by rw [hn]; exact Nat.succ_ne_self _), modesSeen_create (hnext.trans hn), hset,
      create_keeps h (perm_sIfdir host (~~~fs.umask)) (by rw [hr]) (by rw [hr]), hb]
    simp only [hv, ne_eq, hne, not_false_eq_true, true_implies]
  · rw [if_neg (by rw [hr]; exact fun h => h rfl)]
    unfold ModesSeen
    rw [hnext, hset, hr]
    cases hb : fs.names buf with
    | some i =>
      exact setMode_keeps h hb (hok.names_lt hb) (fun _ _ => rfl) mode host
    | none =>
      rw [setMode_none hb]
      exact ⟨fun _ hv hne => absurd (hc hb hv) hne, fun _ => h⟩

/-! ## The host stays well formed -/

theorem ok_of_same {fs fs' : Files} (h : fs.Ok) (hn : fs'.names = fs.names) (hf : fs'.fds = fs.fds)
    (hi : fs'.nextIno = fs.nextIno) : fs'.Ok where
  names_lt := by rw [hn, hi]; exact h.names_lt
  fds_lt := by rw [hf, hi]; exact h.fds_lt
  fds_name := by rw [hf, hn]; exact h.fds_name
  no_name := by rw [hn]; exact h.no_name

theorem ok_setMode {fs : Files} (h : fs.Ok) (buf : Str) (old new : Word) : (setMode fs buf old new).Ok :=
  ok_of_same h (setAttr_names ..) (setAttr_fds ..) (setAttr_nextIno ..)

theorem ok_create_none {fs : Files} (h : fs.Ok) (mode : Word) : (fs.create none mode).Ok where
  names_lt hp := Nat.lt_succ_of_lt (h.names_lt hp)
  fds_lt hp := Nat.lt_succ_of_lt (h.fds_lt hp)
  fds_name hp := h.fds_name hp
  no_name := h.no_name

theorem create_names (fs : Files) (path p : Str) (mode : Word) :
    (fs.create (some path) mode).names p = if p = path then some fs.nextIno else fs.names p := Function.update_apply ..

theorem ok_create {fs : Files} (h : fs.Ok) {path : Str} (hp : path ≠ []) (hfree : fs.names path = none) (mode : Word) :
    (fs.create (some path) mode).Ok where
  names_lt {p i} := by
    rw [create_names]
    split
    · intro e; cases e; exact Nat.lt_succ_self _
    · exact fun e => Nat.lt_succ_of_lt (h.names_lt e)
  fds_lt e := Nat.lt_succ_of_lt (h.fds_lt e)
  fds_name {fd i p} e := by
    rw [create_names]
    rcases h.fds_name e with hn | hn
    · have : p ≠ path := by rintro rfl; rw [hfree] at hn; cases hn
      rw [if_neg this]; exact Or.inl hn
    · exact Or.inr hn
  no_name := by rw [create_names, if_neg hp.symm]; exact h.no_name

theorem ok_opened {fs : Files} (h : fs.Ok) {i : Ino} {path : Str} (hi : i < fs.nextIno)
    (hp : fs.names path = some i ∨ path = []) : (fs.opened i path).Ok where
  names_lt e := h.names_lt e
  fds_lt {fd j p} := by
    show Function.update fs.fds fs.nextFd (some (i, path)) fd = some (j, p) → j < fs.nextIno
    rw [Function.update_apply]
    split
    · intro e; cases e; exact hi
    · exact h.fds_lt
  fds_name {fd j p} := by
    show Function.update fs.fds fs.nextFd (some (i, path)) fd = some (j, p) → fs.names p = some j ∨ p = []
    rw [Function.update_apply]
    split
    · intro e; cases e; exact hp
    · exact h.fds_name
  no_name := h.no_name

theorem ok_nextOpen {fs : Files} (h : fs.Ok) (buf : Str) (oflags mode : Word) (v : Option Errno) :
    (nextOpen fs buf oflags mode v).1.Ok := by
  unfold nextOpen
  split
  · exact h
  · dsimp only
    split
    · rename_i i hb
      split
      · exact ok_opened (ok_create_none h _) (Nat.lt_succ_self _) (Or.inr rfl)
      · split
        · exact h
        · exact ok_opened h (h.names_lt hb) (Or.inl hb)
    · rename_i hb
      split
      · rename_i hc
        refine ok_opened (ok_create h hc.2 hb _) (Nat.lt_succ_self _) (Or.inl ?_)
        rw [create_names, if_pos rfl]
      · exact h

theorem ok_nextMkdirat {fs : Files} (h : fs.Ok) (buf : Str) (mode : Word) (v : Option Errno) :
    (nextMkdirat fs buf mode v).1.Ok := by
  rcases nextMkdirat_cases fs buf mode v with ⟨hb, -, hne, hr⟩ | ⟨hr, -⟩
  · rw [hr]; exact ok_create h hne hb _
  · rw [hr]; exact h

theorem ok_chmodBuf {fs : Files} (h : fs.Ok) (t : Option Ino) (dir : Bool) (buf : Str) (mode : Word)
    (v : Option Errno) : (chmodBuf fs t dir buf mode v).1.Ok := by
  cases t with
  | none => exact ok_setMode h _ _ _
  | some i =>
    cases v with
    | none =>
      have hm : (fs.modify i (Inode.chmod (warnIfInsuffisantUserMode dir mode))).Ok := ok_of_same h rfl rfl rfl
      exact ok_setMode hm _ _ _
    | some e => rw [chmodBuf_fail]; exact ok_setMode h _ _ _

theorem Resolved.run_ok {fs : Files} (h : fs.Ok) (v : Option Errno) (r : Resolved) : (r.run fs v).1.Ok := by
  cases r with
  | chmod target dir buf mode => exact ok_chmodBuf h _ _ _ _ _
  | open_ buf oflags mode => exact ok_setMode (ok_nextOpen h _ _ _ _) _ _ _
  | mkdir buf mode => exact ok_setMode (ok_nextMkdirat h _ _ _) _ _ _

/-! ## Whole runs -/

def KeepsModes (resolve : Resolve) (gumask : Word) (s : ModeState) (a : ModeCall × Option Errno) : Prop :=
  match a.1.resolved resolve s.1 with
  | none => True
  | some c => c.Keeps gumask s.1 a.2

theorem ModeCall.resolved_chmod {resolve : Resolve} {fs : Files} (hok : fs.Ok) {c : ModeCall} {t : Option Ino}
    {dir : Bool} {buf : Str} {mode : Word} (h : c.resolved resolve fs = some (.chmod t dir buf mode)) :
    (∀ i, t = some i → i < fs.nextIno) ∧ (fs.names buf = t ∨ fs.names buf = none) := by
  cases c with
  | chmod path _ | fchmodat dfd path _ atflags =>
    obtain ⟨b, -, hb⟩ := Option.map_eq_some_iff.mp h
    cases hb
    exact ⟨fun i hi => hok.names_lt hi, Or.inl rfl⟩
  | fchmod fd _ =>
    obtain ⟨f, hf, hb⟩ := Option.map_eq_some_iff.mp h
    cases hb
    refine ⟨fun i hi => Option.some.inj hi ▸ hok.fds_lt hf, ?_⟩
    rcases hok.fds_name hf with hn | hn
    · exact Or.inl hn
    · right; rw [hn]; exact hok.no_name
  | open_ path oflags _ | openat dfd path oflags _ | mkdirat dfd path _ =>
    obtain ⟨b, -, hb⟩ := Option.map_eq_some_iff.mp h
    cases hb

theorem Resolved.keeps_iff {fs : Files} {m : Modes} (h : ModesSeen fs m) (hok : fs.Ok) (g : Word) (v : Option Errno)
    {r : Resolved} (ht : ∀ t dir buf mode, r = .chmod t dir buf mode →
      (∀ i, t = some i → i < fs.nextIno) ∧ (fs.names buf = t ∨ fs.names buf = none)) :
    ModesSeen (r.run fs v).1 (r.record g fs (r.run fs v) m) ↔ r.Keeps g fs v := by
  cases r with
  | chmod t dir buf mode =>
    obtain ⟨hi, hb⟩ := ht t dir buf mode rfl
    exact chmod_keeps h hi hb g dir mode v
  | open_ buf oflags mode => exact open_keeps h hok g buf oflags mode v
  | mkdir buf mode => exact mkdir_keeps h hok g buf mode v

def ModeInv (s : ModeState) : Prop := s.1.Ok ∧ ModesSeen s.1 s.2

theorem modeStep_keeps_iff (resolve : Resolve) (g : Word) (s : ModeState) (a : ModeCall × Option Errno)
    (hs : ModeInv s) :
    ModesSeen (modeStep resolve g s a).1 (modeStep resolve g s a).2 ↔ KeepsModes resolve g s a := by
  simp only [modeStep, KeepsModes, ModeCall.run_eq]
  cases hr : a.1.resolved resolve s.1 with
  | none => exact ⟨fun _ => trivial, fun _ => hs.2⟩
  | some r =>
    refine Resolved.keeps_iff hs.2 hs.1 g a.2 fun t dir buf mode e => ?_
    rw [e] at hr
    exact ModeCall.resolved_chmod hs.1 hr

theorem modeStep_ok (resolve : Resolve) (g : Word) (s : ModeState) (a : ModeCall × Option Errno) (hs : s.1.Ok) :
    (modeStep resolve g s a).1.Ok := by
  simp only [modeStep, ModeCall.run_eq]
  cases a.1.resolved resolve s.1 with
  | none => exact hs
  | some r => exact Resolved.run_ok hs _ _

theorem modeStep_inv (resolve : Resolve) (g : Word) (s : ModeState) (a : ModeCall × Option Errno) (hs : ModeInv s)
    (ha : KeepsModes resolve g s a) : ModeInv (modeStep resolve g s a) :=
  ⟨modeStep_ok resolve g s a hs.1, (modeStep_keeps_iff resolve g s a hs).mpr ha⟩

/-- The condition is exact: it fails at the first call after which some file
shows other bits than its last `chmod` or its creation asked for. -/
theorem mode_run_iff (resolve : Resolve) (gumask : Word) (fs : Files) (m : Modes) (hs : ModeInv (fs, m))
    (l : List (ModeCall × Option Errno)) :
    Run.Meets (modeStep resolve gumask) (KeepsModes resolve gumask) (fs, m) l ↔
      ∀ l₁, l₁ <+: l → ModesSeen (Run.exec (modeStep resolve gumask) (fs, m) l₁).1
        (Run.exec (modeStep resolve gumask) (fs, m) l₁).2 :=
  Run.Meets.iff (J := fun s : ModeState => ModesSeen s.1 s.2) (modeStep_inv resolve gumask) (fun _ h => h.2)
    (fun s a h => (modeStep_keeps_iff resolve gumask s a h).mp) l _ hs

/-- **Permissions over a run.** While each call leaves what is to be seen, every
stat reports the bits of the last successful `chmod` of the file or, when there
was none, of its creation. -/
theorem mode_run (resolve : Resolve) (gumask : Word) (fs : Files) (m : Modes) (hs : ModeInv (fs, m))
    (l : List (ModeCall × Option Errno))
    (hl : Run.Meets (modeStep resolve gumask) (KeepsModes resolve gumask) (fs, m) l)
    (c : StatCall) (v : Option Errno) (st : Stat) (i : Ino)
    (hst : c.run resolve (Run.exec (modeStep resolve gumask) (fs, m) l).1 v = some st)
    (hi : c.file resolve (Run.exec (modeStep resolve gumask) (fs, m) l).1 = some i) :
    perm st.mode = (Run.exec (modeStep resolve gumask) (fs, m) l).2 i := by
  have h := Run.Meets.inv (modeStep_inv resolve gumask) l _ hs hl
  rw [StatCall.run_eq resolve _ c hst hi]
  exact h.2 i (StatCall.file_lt resolve h.1 hi)

theorem oneFile_modeInv : ModeInv (oneFile, fun _ => 0o644) := by
  refine ⟨oneFile_ok, fun i hi => ?_⟩
  rw [Nat.lt_one_iff.mp hi]
  decide

theorem mode_run_chmod : ∃ st, StatCall.run asIs
    (Run.exec (modeStep asIs 0o022) (oneFile, fun _ => 0o644) [(.chmod ['/', 'f'] 0o400, none)]).1 none
      (.stat ['/', 'f']) = some st ∧ perm st.mode = 0o400 := by
  refine ⟨_, rfl, ?_⟩
  exact mode_run asIs 0o022 oneFile _ oneFile_modeInv [(.chmod ['/', 'f'] 0o400, none)] ⟨trivial, trivial⟩
    (.stat ['/', 'f']) none _ 0 rfl rfl

/-- After `chmod("/f", 0400)`, opening `/f` to read it deletes the stored mode
and the next `stat` reports the host's 0600. -/
theorem mode_lost : ModeInv (oneFile, fun _ => 0o644) ∧ ∃ st, StatCall.run asIs
    (Run.exec (modeStep asIs 0o022) (oneFile, fun _ => 0o644)
      [(.chmod ['/', 'f'] 0o400, none), (.open_ ['/', 'f'] 0 0, none)]).1 none (.stat ['/', 'f']) = some st ∧
    (Run.exec (modeStep asIs 0o022) (oneFile, fun _ => 0o644)
      [(.chmod ['/', 'f'] 0o400, none), (.open_ ['/', 'f'] 0 0, none)]).2 0 = 0o400 ∧
    perm st.mode = 0o600 := ⟨oneFile_modeInv, _, rfl, by decide, by decide⟩

end Iamroot
