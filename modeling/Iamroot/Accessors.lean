import Mathlib.Logic.Function.Basic
import Iamroot.Files

/-!
# The accessors of the three attributes

`iamroot.h` has a getter and a setter of the mode, of the owner and of the
group, for a path and for a descriptor, once over `lgetxattr` and its like and
once over `extattr_get_link` and its like. Each writes the bytes of a `mode_t`,
a `uid_t` or a `gid_t`, and reads them back when there are as many as it asks for.
-/

namespace Iamroot

inductive System where
  | linux | freebsd | netbsd
  deriving DecidableEq

def System.sizeof : System → Attr → Nat
  | .freebsd, .mode => 2
  | .freebsd, .uid | .freebsd, .gid | .linux, _ | .netbsd, _ => 4

abbrev System.Val (sys : System) (a : Attr) := BitVec (8 * sys.sizeof a)

structure AttrBytes where
  size : Nat
  bits : BitVec (8 * size)

structure Store where
  names : Str → Option Ino
  fds : Nat → Option Ino
  attr : Ino → Attr → Option AttrBytes

namespace Store

variable (st : Store)

def put (i : Ino) (a : Attr) (b : Option AttrBytes) : Store :=
  { st with attr := Function.update st.attr i (Function.update (st.attr i) a b) }

def read (sys : System) (n : Nat) (i : Ino) (name : Attr) : Option (BitVec (8 * n)) :=
  (st.attr i name).bind fun b =>
    if b.size = n ∨ sys ≠ .linux ∧ n < b.size then some (b.bits.setWidth _) else none

end Store

/-! ## The bodies -/

section
variable (sys : System) (name a : Attr) (st : Store)

def getIno (i : Option Ino) : sys.Val a × Store :=
  ((i.bind fun i => st.read sys (sys.sizeof a) i name).getD (BitVec.allOnes _), st)

def setIno (v : Option Errno) (i : Option Ino) (old new : sys.Val a) : Option Store :=
  match v, i with
  | none, some i =>
    if old = new then (st.attr i name).map fun _ => st.put i name none
    else some (st.put i name (some ⟨sys.sizeof a, old⟩))
  | _, _ => none

def getLink (path : Str) : sys.Val a × Store := getIno sys name a st (st.names path)

def getFd (fd : Nat) : sys.Val a × Store := getIno sys name a st (st.fds fd)

def setLink (v : Option Errno) (path : Str) (old new : sys.Val a) : Option Store :=
  setIno sys name a st v (st.names path) old new

def setFd (v : Option Errno) (fd : Nat) (old new : sys.Val a) : Option Store :=
  setIno sys name a st v (st.fds fd) old new

end

/-! ## On Linux -/

namespace Linux

def getMode := getLink .linux .mode .mode
def setMode := setLink .linux .mode .mode
def fgetMode := getFd .linux .mode .mode
def fsetMode := setFd .linux .mode .mode
def getUid := getLink .linux .uid .uid
def setUid := setLink .linux .uid .uid
def fgetUid := getFd .linux .uid .uid
def fsetUid := setFd .linux .uid .uid
def getGid := getLink .linux .gid .gid
def setGid := setLink .linux .gid .gid
def fgetGid := getFd .linux .gid .gid
def fsetGid := setFd .linux .gid .gid

end Linux

/-! ## On FreeBSD and NetBSD -/

namespace Bsd

variable (sys : System)

def getMode := getLink sys .mode .mode
def setMode := setLink sys .mode .mode

/-- The call is `extattr_set_fd`: it writes the -1 that the word holds before. -/
def fgetMode (st : Store) (fd : Nat) : sys.Val .mode × Store :=
  (BitVec.allOnes _,
    match st.fds fd with
    | some i => st.put i .mode (some ⟨sys.sizeof .mode, BitVec.allOnes _⟩)
    | none => st)

/-- The calls are those of a path, and no descriptor is the address of one. -/
def fsetMode (_ : Store) (_ : Option Errno) (_ : Nat) (_ _ : sys.Val .mode) : Option Store := none

def getUid := getLink sys .uid .uid
def setUid := setLink sys .uid .uid
def fgetUid := getFd sys .uid .uid
def fsetUid := setFd sys .uid .uid

/-- The attribute is that of the mode. -/
def getGid := getLink sys .mode .gid
def setGid := setLink sys .gid .gid

/-- The attribute is that of the mode. -/
def fgetGid := getFd sys .mode .gid
def fsetGid := setFd sys .gid .gid

end Bsd

/-! ## The accessors by their names -/

inductive Access where
  | path (path : Str)
  | fd (fd : Nat)

def Access.ino (st : Store) : Access → Option Ino
  | .path p => st.names p
  | .fd n => st.fds n

def getter : (sys : System) → (a : Attr) → Access → Store → sys.Val a × Store
  | .linux, .mode, .path path, st => Linux.getMode st path
  | .linux, .mode, .fd fd, st => Linux.fgetMode st fd
  | .linux, .uid, .path path, st => Linux.getUid st path
  | .linux, .uid, .fd fd, st => Linux.fgetUid st fd
  | .linux, .gid, .path path, st => Linux.getGid st path
  | .linux, .gid, .fd fd, st => Linux.fgetGid st fd
  | sys, .mode, .path path, st => Bsd.getMode sys st path
  | sys, .mode, .fd fd, st => Bsd.fgetMode sys st fd
  | sys, .uid, .path path, st => Bsd.getUid sys st path
  | sys, .uid, .fd fd, st => Bsd.fgetUid sys st fd
  | sys, .gid, .path path, st => Bsd.getGid sys st path
  | sys, .gid, .fd fd, st => Bsd.fgetGid sys st fd

def setter : (sys : System) → (a : Attr) → Access → Option Errno → Store → sys.Val a → sys.Val a → Option Store
  | .linux, .mode, .path path, v, st, old, new => Linux.setMode st v path old new
  | .linux, .mode, .fd fd, v, st, old, new => Linux.fsetMode st v fd old new
  | .linux, .uid, .path path, v, st, old, new => Linux.setUid st v path old new
  | .linux, .uid, .fd fd, v, st, old, new => Linux.fsetUid st v fd old new
  | .linux, .gid, .path path, v, st, old, new => Linux.setGid st v path old new
  | .linux, .gid, .fd fd, v, st, old, new => Linux.fsetGid st v fd old new
  | sys, .mode, .path path, v, st, old, new => Bsd.setMode sys st v path old new
  | sys, .mode, .fd fd, v, st, old, new => Bsd.fsetMode sys st v fd old new
  | sys, .uid, .path path, v, st, old, new => Bsd.setUid sys st v path old new
  | sys, .uid, .fd fd, v, st, old, new => Bsd.fsetUid sys st v fd old new
  | sys, .gid, .path path, v, st, old, new => Bsd.setGid sys st v path old new
  | sys, .gid, .fd fd, v, st, old, new => Bsd.fsetGid sys st v fd old new

/-! ## Reading what was put -/

section
variable (st : Store) (sys : System)

theorem Store.put_attr_self (i : Ino) (a : Attr) (b : Option AttrBytes) : (st.put i a b).attr i a = b := by
  simp [Store.put]

theorem Store.put_attr_ne {i j : Ino} {a c : Attr} (h : ¬ (j = i ∧ c = a)) (b : Option AttrBytes) :
    (st.put i a b).attr j c = st.attr j c := by
  unfold Store.put
  dsimp only
  by_cases hj : j = i
  · subst hj
    rw [Function.update_self, Function.update_of_ne fun hc => h ⟨rfl, hc⟩]
  · rw [Function.update_of_ne hj]

theorem Store.put_eq_self_iff (i : Ino) (a : Attr) (b : Option AttrBytes) : st.put i a b = st ↔ st.attr i a = b := by
  constructor
  · intro h
    rw [← h]
    exact st.put_attr_self i a b
  · intro h
    subst h
    unfold Store.put
    rw [Function.update_eq_self, Function.update_eq_self]

theorem Access.ino_put (i : Ino) (a : Attr) (b : Option AttrBytes) (x : Access) : x.ino (st.put i a b) = x.ino st := by
  cases x <;> rfl

theorem Store.read_put_ne {i : Ino} {a name : Attr} (h : name ≠ a) (b : Option AttrBytes) (n : Nat) :
    (st.put i a b).read sys n i name = st.read sys n i name := by
  unfold Store.read
  rw [st.put_attr_ne fun hc => h hc.2]

theorem getIno_put_ne {i : Ino} {a name : Attr} (h : name ≠ a) (c : Attr) (b : Option AttrBytes) :
    (getIno sys name c (st.put i a b) (some i)).1 = (getIno sys name c st (some i)).1 := by
  unfold getIno
  rw [Option.bind_some, Option.bind_some, st.read_put_ne sys h]

theorem Store.read_put_self (i : Ino) (a name : Attr) (v : sys.Val a) :
    (st.put i name (some ⟨sys.sizeof a, v⟩)).read sys (sys.sizeof a) i name = some v := by
  unfold Store.read
  rw [st.put_attr_self, Option.bind_some, if_pos (Or.inl rfl), BitVec.setWidth_eq]

end

/-! ## What the accessors do -/

theorem getter_linux (a : Attr) (y : Access) (st : Store) : getter .linux a y st = getIno .linux a a st (y.ino st) := by
  cases a <;> cases y <;> rfl

section
variable {sys : System} (hsys : sys ≠ .linux) (st : Store)
include hsys

theorem getter_uid (y : Access) : getter sys .uid y st = getIno sys .uid .uid st (y.ino st) := by
  cases sys with
  | linux => exact absurd rfl hsys
  | freebsd | netbsd => cases y <;> rfl

theorem getter_gid (y : Access) : getter sys .gid y st = getIno sys .mode .gid st (y.ino st) := by
  cases sys with
  | linux => exact absurd rfl hsys
  | freebsd | netbsd => cases y <;> rfl

theorem getter_mode_path (p : Str) : getter sys .mode (.path p) st = getIno sys .mode .mode st (st.names p) := by
  cases sys with
  | linux => exact absurd rfl hsys
  | freebsd | netbsd => rfl

theorem getter_mode_fd (fd : Nat) : getter sys .mode (.fd fd) st = Bsd.fgetMode sys st fd := by
  cases sys with
  | linux => exact absurd rfl hsys
  | freebsd | netbsd => rfl

end

theorem setIno_put {sys : System} {a : Attr} (st : Store) (name : Attr) {old new : sys.Val a} (h : old ≠ new) (i : Ino) :
    setIno sys name a st none (some i) old new = some (st.put i name (some ⟨sys.sizeof a, old⟩)) := by
  unfold setIno
  dsimp only
  rw [if_neg h]

theorem setIno_some {sys : System} {a : Attr} {st st' : Store} {v : Option Errno} {o : Option Ino} {old new : sys.Val a}
    (hne : old ≠ new) (h : setIno sys a a st v o old new = some st') :
    ∃ i, o = some i ∧ st' = st.put i a (some ⟨sys.sizeof a, old⟩) := by
  unfold setIno at h
  split at h
  · rename_i i
    rw [if_neg hne, Option.some.injEq] at h
    exact ⟨i, rfl, h.symm⟩
  · cases h

theorem setter_some {sys : System} {a : Attr} {x : Access} {v : Option Errno} {st st' : Store} {old new : sys.Val a}
    (hne : old ≠ new) (h : setter sys a x v st old new = some st') :
    ∃ i, x.ino st = some i ∧ st' = st.put i a (some ⟨sys.sizeof a, old⟩) := by
  cases x with
  | path p => cases sys <;> cases a <;> exact setIno_some hne h
  | fd fd =>
    cases a with
    | mode =>
      cases sys with
      | linux => exact setIno_some hne h
      | freebsd | netbsd => cases h
    | uid | gid => cases sys <;> exact setIno_some hne h

/-! ## Linux, and the files of the wrappers -/

def Value.bytes : Value → AttrBytes
  | .word w => ⟨4, w⟩
  | .other _ => ⟨0, 0#0⟩

def Files.store (fs : Files) : Store where
  names := fs.names
  fds fd := (fs.fds fd).map Prod.fst
  attr i a := ((fs.inode i).attr a).map Value.bytes

theorem store_get (fs : Files) (i : Ino) (a : Attr) :
    (getIno .linux a a fs.store (some i)).1 = (fs.inode i).get a := by
  unfold getIno Store.read Files.store Inode.get
  dsimp only [Option.bind_some]
  cases (fs.inode i).attr a with
  | none => cases a <;> rfl
  | some b =>
    cases b with
    | other s => cases a <;> rfl
    | word w =>
      have hw : (⟨4, w⟩ : AttrBytes).bits.setWidth 32 = w := BitVec.setWidth_eq w
      cases a <;> exact hw

theorem store_getAttr (fs : Files) (a : Attr) (path : Str) :
    (getter .linux a (.path path) fs.store).1 = getAttr a fs path := by
  rw [getter_linux]
  unfold getAttr
  show (getIno .linux a a fs.store (fs.names path)).1 = _
  cases fs.names path with
  | none => cases a <;> rfl
  | some i => exact store_get fs i a

theorem store_fgetAttr (fs : Files) (a : Attr) (fd : Nat) :
    (getter .linux a (.fd fd) fs.store).1 = fgetAttr a fs fd := by
  rw [getter_linux]
  unfold fgetAttr
  show (getIno .linux a a fs.store ((fs.fds fd).map Prod.fst)).1 = _
  cases fs.fds fd with
  | none => cases a <;> rfl
  | some f => exact store_get fs f.1 a

theorem store_setAttr (fs : Files) (a : Attr) (path : Str) {i : Ino} (hi : fs.names path = some i) {old new : Word}
    (h : old ≠ new) : setter .linux a (.path path) none fs.store old new = some (setAttr a fs path old new).store := by
  have hput : setter .linux a (.path path) none fs.store old new = setIno .linux a a fs.store none (fs.names path) old new := by
    cases a <;> rfl
  have hset : setAttr a fs path old new = fs.modify i fun n => n.set a old new := by
    unfold setAttr; rw [hi]
  have hattr : ((fs.modify i fun n => n.set a old new).store).attr =
      (fs.store.put i a (some ⟨System.sizeof .linux a, old⟩)).attr := by
    have hbytes : Value.bytes (.word old) = ⟨System.sizeof .linux a, old⟩ := by cases a <;> rfl
    funext j b
    by_cases hj : j = i ∧ b = a
    · rw [hj.1, hj.2, fs.store.put_attr_self, ← hbytes]
      show (((fs.modify i fun n => n.set a old new).inode i).attr a).map Value.bytes = _
      rw [Files.modify_self, Inode.set]
      simp [h]
    · rw [fs.store.put_attr_ne hj]
      show (((fs.modify i fun n => n.set a old new).inode j).attr b).map Value.bytes = ((fs.inode j).attr b).map Value.bytes
      by_cases hi : j = i
      · rw [hi, Files.modify_self, Inode.set]
        dsimp only
        rw [Function.update_of_ne fun hb => hj ⟨hi, hb⟩]
      · rw [Files.modify_ne fs hi]
  rw [hput, hset, hi]
  exact (setIno_put fs.store a h i).trans (congrArg (fun f => some { fs.store with attr := f }) hattr.symm)

/-! ## Consistent pairs -/

/-- What the getters should say of the file `i` once a setter of its attribute `a` has
turned `st` into `st'`. -/
structure Consistent (sys : System) (st st' : Store) (a : Attr) (i : Ino) (v : sys.Val a) : Prop where
  same : ∀ y : Access, y.ino st' = some i → (getter sys a y st').1 = v
  others : ∀ b, b ≠ a → ∀ y : Access, y.ino st' = some i → (getter sys b y st').1 = (getter sys b y st).1
  store : ∀ b y, (getter sys b y st').2 = st'

def Store.gidRead (st : Store) (sys : System) (i : Ino) : BitVec (8 * sys.sizeof .gid) :=
  (getIno sys .mode .gid st (some i)).1

/-- The condition, on the store before. Away from Linux, the mode's attribute of the file already reads as
the group that is set, or reads as the same group before and after; and each open file has
the mode -1 stored already. -/
def Paired (sys : System) (st : Store) (a : Attr) (i : Ino) (v : sys.Val a) : Prop :=
  sys = .linux ∨
    (match a with
      | .mode => st.gidRead sys i = if sys = .freebsd then BitVec.allOnes _ else v.setWidth _
      | .uid => True
      | .gid => st.gidRead sys i = v) ∧
    ∀ fd j, st.fds fd = some j →
      if a = .mode ∧ j = i then v = BitVec.allOnes _
      else st.attr j .mode = some ⟨sys.sizeof .mode, BitVec.allOnes _⟩

theorem consistent_linux {st : Store} {a : Attr} {i : Ino} (v : System.Val .linux a) :
    Consistent .linux st (st.put i a (some ⟨_, v⟩)) a i v where
  same y hy := by
    rw [getter_linux, hy]
    unfold getIno
    rw [Option.bind_some, st.read_put_self]
    rfl
  others b hb y hy := by
    have hy' : y.ino st = some i := (Access.ino_put st i a _ y).symm.trans hy
    rw [getter_linux, getter_linux, hy, hy']
    exact getIno_put_ne st .linux hb b _
  store b y := by
    rw [getter_linux]
    rfl

section
variable {sys : System} (hsys : sys ≠ .linux) (st : Store)
include hsys

/-- The getter that writes changes nothing where its -1 is stored already. -/
theorem getters_keep_iff :
    (∀ b y, (getter sys b y st).2 = st) ↔
      ∀ fd j, st.fds fd = some j → st.attr j .mode = some ⟨sys.sizeof .mode, BitVec.allOnes _⟩ := by
  constructor
  · intro h fd j hj
    have hk := h .mode (.fd fd)
    rw [getter_mode_fd hsys] at hk
    unfold Bsd.fgetMode at hk
    rw [hj] at hk
    exact (st.put_eq_self_iff j .mode _).mp hk
  · intro h b y
    cases b with
    | uid => rw [getter_uid hsys]; rfl
    | gid => rw [getter_gid hsys]; rfl
    | mode =>
      cases y with
      | path p => rw [getter_mode_path hsys]; rfl
      | fd fd =>
        rw [getter_mode_fd hsys]
        unfold Bsd.fgetMode
        cases hj : st.fds fd with
        | none => rfl
        | some j => exact (st.put_eq_self_iff j .mode _).mpr (h fd j hj)

theorem getter_gid_of {y : Access} {i : Ino} (hy : y.ino st = some i) : (getter sys .gid y st).1 = st.gidRead sys i := by
  rw [getter_gid hsys, hy]
  rfl

theorem gidRead_put_mode (i : Ino) (v : sys.Val .mode) :
    (st.put i .mode (some ⟨sys.sizeof .mode, v⟩)).gidRead sys i =
      if sys = .freebsd then BitVec.allOnes _ else v.setWidth _ := by
  unfold Store.gidRead getIno Store.read
  rw [Option.bind_some, st.put_attr_self, Option.bind_some]
  cases sys with
  | linux => exact absurd rfl hsys
  | freebsd | netbsd => rfl

theorem getter_put_self {a : Attr} (ha : a ≠ .gid) {i : Ino} (v : sys.Val a) {y : Access}
    (hy : y.ino (st.put i a (some ⟨sys.sizeof a, v⟩)) = some i) (hp : a = .mode → ∃ p, y = .path p) :
    (getter sys a y (st.put i a (some ⟨sys.sizeof a, v⟩))).1 = v := by
  have hread : (getIno sys a a (st.put i a (some ⟨sys.sizeof a, v⟩)) (some i)).1 = v := by
    unfold getIno
    rw [Option.bind_some, st.read_put_self]
    rfl
  cases a with
  | gid => exact absurd rfl ha
  | uid => rw [getter_uid hsys, hy]; exact hread
  | mode =>
    obtain ⟨p, rfl⟩ := hp rfl
    rw [getter_mode_path hsys]
    have hp : (st.put i .mode (some ⟨sys.sizeof .mode, v⟩)).names p = some i := hy
    rw [hp]
    exact hread

theorem getter_put_other {a b : Attr} (hb : b ≠ a) (hg : b = .gid → a ≠ .mode) {i : Ino} (o : Option AttrBytes) {y : Access}
    (hy : y.ino st = some i) : (getter sys b y (st.put i a o)).1 = (getter sys b y st).1 := by
  have hy' : y.ino (st.put i a o) = some i := (Access.ino_put st i a _ y).trans hy
  cases b with
  | uid =>
    rw [getter_uid hsys, getter_uid hsys, hy, hy']
    exact getIno_put_ne st sys hb .uid o
  | gid =>
    rw [getter_gid hsys, getter_gid hsys, hy, hy']
    exact getIno_put_ne st sys (hg rfl).symm .gid o
  | mode =>
    cases y with
    | fd fd => rw [getter_mode_fd hsys, getter_mode_fd hsys]; rfl
    | path p =>
      have hp : (st.put i a o).names p = some i := hy'
      have hp' : st.names p = some i := hy
      rw [getter_mode_path hsys, getter_mode_path hsys, hp, hp']
      exact getIno_put_ne st sys hb .mode o

omit hsys in
theorem put_attr_mode_iff {a : Attr} (i j : Ino) (v : sys.Val a) :
    (st.put i a (some ⟨sys.sizeof a, v⟩)).attr j .mode = some ⟨sys.sizeof .mode, BitVec.allOnes _⟩ ↔
      if a = .mode ∧ j = i then v = BitVec.allOnes _
      else st.attr j .mode = some ⟨sys.sizeof .mode, BitVec.allOnes _⟩ := by
  by_cases h : a = .mode ∧ j = i
  · obtain ⟨rfl, rfl⟩ := h
    rw [if_pos ⟨rfl, rfl⟩, st.put_attr_self, Option.some.injEq, AttrBytes.mk.injEq]
    exact ⟨fun h => eq_of_heq h.2, fun h => ⟨rfl, heq_of_eq h⟩⟩
  · rw [if_neg h, st.put_attr_ne fun h' => h ⟨h'.2.symm, h'.1⟩]

theorem consistent_bsd_iff {a : Attr} {i : Ino} {x : Access} (hx : x.ino st = some i) (v : sys.Val a) :
    Consistent sys st (st.put i a (some ⟨sys.sizeof a, v⟩)) a i v ↔ Paired sys st a i v := by
  have hkeep := getters_keep_iff hsys (st.put i a (some ⟨sys.sizeof a, v⟩))
  have hx' : x.ino (st.put i a (some ⟨sys.sizeof a, v⟩)) = some i := (Access.ino_put st i a _ x).trans hx
  constructor
  · intro h
    refine Or.inr ⟨?_, fun fd j hj => (put_attr_mode_iff st i j v).mp (hkeep.mp h.store fd j hj)⟩
    cases a with
    | uid => trivial
    | mode =>
      have hg := h.others .gid (by decide) x hx'
      rw [getter_gid_of hsys _ hx', getter_gid_of hsys _ hx, gidRead_put_mode hsys] at hg
      exact hg.symm
    | gid =>
      have hg := h.same x hx'
      rwa [getter_gid_of hsys _ hx', Store.gidRead, getIno_put_ne st sys (by decide)] at hg
  · intro h
    obtain ⟨hgid, hfds⟩ := h.resolve_left hsys
    have hstored := fun fd j hj => (put_attr_mode_iff st i j v).mpr (hfds fd j hj)
    have hino : ∀ y : Access, y.ino (st.put i a (some ⟨sys.sizeof a, v⟩)) = some i → y.ino st = some i :=
      fun y hy => (Access.ino_put st i a _ y).symm.trans hy
    refine ⟨fun y hy => ?_, fun b hb y hy => ?_, hkeep.mpr hstored⟩
    · cases a with
      | uid => exact getter_put_self hsys st (by decide) v hy fun h => absurd h (by decide)
      | gid =>
        rw [getter_gid_of hsys _ hy, Store.gidRead, getIno_put_ne st sys (by decide)]
        exact hgid
      | mode =>
        cases y with
        | path p => exact getter_put_self hsys st (by decide) v hy fun _ => ⟨p, rfl⟩
        | fd fd =>
          have hv := hfds fd i (hino _ hy)
          rw [if_pos ⟨rfl, rfl⟩] at hv
          rw [getter_mode_fd hsys, hv]
          rfl
    · by_cases hg : b = .gid ∧ a = .mode
      · obtain ⟨rfl, rfl⟩ := hg
        rw [getter_gid_of hsys _ hy, getter_gid_of hsys _ (hino y hy), gidRead_put_mode hsys]
        exact hgid.symm
      · exact getter_put_other hsys st hb (fun h ha => hg ⟨h, ha⟩) _ (hino y hy)

end

/-- **The accessors as pairs.** After a setter succeeds, the getters of the file say what was
asked, the others what they said, and none changes the store: on Linux always, on FreeBSD and
NetBSD under the condition. -/
theorem accessors_consistent_iff (sys : System) (st st' : Store) (a : Attr) (x : Access) (verdict : Option Errno)
    (v w : sys.Val a) (hvw : v ≠ w) (h : setter sys a x verdict st v w = some st') (i : Ino) (hi : x.ino st = some i) :
    Consistent sys st st' a i v ↔ Paired sys st a i v := by
  obtain ⟨j, hj, rfl⟩ := setter_some hvw h
  obtain rfl : i = j := Option.some.inj (hi.symm.trans hj)
  by_cases hsys : sys = .linux
  · subst hsys
    exact ⟨fun _ => Or.inl rfl, fun _ => consistent_linux v⟩
  · exact consistent_bsd_iff hsys st hi v

def oneStore : Store where
  names p := if p = ['/', 'f'] then some 0 else none
  fds n := if n = 3 then some 0 else none
  attr _ _ := none

def modeStore : Store where
  names := oneStore.names
  fds _ := none
  attr _ a := if a = .mode then some ⟨4, 5#32⟩ else none

/-- The group 5, on Linux, and on NetBSD where the mode reads as that group. -/
theorem accessors_consistent_setGid :
    Consistent .linux oneStore (oneStore.put 0 .gid (some ⟨4, 5#32⟩)) .gid 0 5#32 ∧
    Consistent .netbsd modeStore (modeStore.put 0 .gid (some ⟨4, 5#32⟩)) .gid 0 5#32 := by
  constructor
  · exact (accessors_consistent_iff .linux oneStore _ .gid (.fd 3) none 5#32 1000#32
      (show 5#32 ≠ 1000#32 by decide) rfl 0 rfl).mpr (.inl rfl)
  · exact (accessors_consistent_iff .netbsd modeStore _ .gid (.path ['/', 'f']) none 5#32 1000#32
      (show 5#32 ≠ 1000#32 by decide) rfl 0 rfl).mpr (.inr ⟨rfl, fun _ _ h => (Option.some_ne_none _ h.symm).elim⟩)

/-- On NetBSD, after `__set_gid("/f", 5, 1000)` the group reads as -1, and `__fget_mode(3)` stores the mode -1. -/
theorem accessors_mixed : ∃ st, setter .netbsd .gid (.path ['/', 'f']) none oneStore 5#32 1000#32 = some st ∧
    (getter .netbsd .gid (.path ['/', 'f']) st).1 = BitVec.allOnes 32 ∧
    st.attr 0 .mode = none ∧ ((getter .netbsd .mode (.fd 3) st).2.attr 0 .mode).isSome :=
  ⟨_, rfl, rfl, rfl, rfl⟩

end Iamroot
