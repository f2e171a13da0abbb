import Iamroot.Lib.Run
import Iamroot.Files

/-!
# Emulated ownership

`chown`, `lchown`, `fchown` and `fchownat` hand the host the owner that the
attributes hold, or the requested one when they hold none, and store the
requested owner when the two differ. From files without attributes they never
differ: nothing is ever stored, and every owner stays 0.
-/

namespace Iamroot

def nextChown (fs : Files) (i : Ino) (owner group : Word) (v : Option Errno) : Files × Option Errno :=
  match v with
  | some e => (fs, some e)
  | none =>
    (fs.modify i fun n =>
      { n with
        uid := if owner = minusOne then n.uid else owner
        gid := if group = minusOne then n.gid else group }, none)

section
variable (resolve : Resolve) (fs : Files)

/-- The common body: `target` is the file the host call works on, `buf` the path of the attributes. -/
def chownBuf (target : Option Ino) (buf : Str) (oldowner oldgroup : Word) (v : Option Errno) : Files × Int :=
  let owner := getUid fs buf
  let owner := if owner = minusOne then oldowner else owner
  let group := getGid fs buf
  let group := if group = minusOne then oldgroup else group
  let (fs, err) := match target with
    | some i => nextChown fs i owner group v
    | none => (fs, some .ENOENT)
  let fs := setUid fs buf oldowner owner
  let fs := setGid fs buf oldgroup group
  (fs, forgiven err)

def fchownat (dfd : Int) (path : Str) (owner group atflags : Word) (v : Option Errno) : Files × Int :=
  match resolve fs dfd path atflags 0 with
  | none => (fs, -1)
  | some buf => chownBuf fs (fs.names buf) buf owner group v

def chown (path : Str) (owner group : Word) (v : Option Errno) : Files × Int :=
  match resolve fs atFdcwd path 0 0 with
  | none => (fs, -1)
  | some buf => chownBuf fs (fs.names buf) buf owner group v

def lchown (path : Str) (owner group : Word) (v : Option Errno) : Files × Int :=
  match resolve fs atFdcwd path atSymlinkNofollow prNowalkalong with
  | none => (fs, -1)
  | some buf => chownBuf fs (fs.names buf) buf owner group v

def fchown (fd : Nat) (owner group : Word) (v : Option Errno) : Files × Int :=
  match fs.fds fd with
  | none => (fs, -1)
  | some (i, buf) => chownBuf fs (some i) buf owner group v

end

inductive ChownCall where
  | chown (path : Str) (owner group : Word)
  | lchown (path : Str) (owner group : Word)
  | fchown (fd : Nat) (owner group : Word)
  | fchownat (dfd : Int) (path : Str) (owner group atflags : Word)

namespace ChownCall

def owner : ChownCall → Word
  | chown _ u _ | lchown _ u _ | fchown _ u _ | fchownat _ _ u _ _ => u

def group : ChownCall → Word
  | chown _ _ g | lchown _ _ g | fchown _ _ g | fchownat _ _ _ g _ => g

variable (resolve : Resolve) (fs : Files)

def run (v : Option Errno) : ChownCall → Files × Int
  | chown path u g => Iamroot.chown resolve fs path u g v
  | lchown path u g => Iamroot.lchown resolve fs path u g v
  | fchown fd u g => Iamroot.fchown fs fd u g v
  | fchownat dfd path u g atflags => Iamroot.fchownat resolve fs dfd path u g atflags v

def file : ChownCall → Option Ino
  | chown path _ _ => (resolve fs atFdcwd path 0 0).bind fs.names
  | lchown path _ _ => (resolve fs atFdcwd path atSymlinkNofollow prNowalkalong).bind fs.names
  | fchown fd _ _ => (fs.fds fd).map Prod.fst
  | fchownat dfd path _ _ atflags => (resolve fs dfd path atflags 0).bind fs.names

end ChownCall

/-! ## What the owner should be -/

structure Owners where
  uid : Ino → Word
  gid : Ino → Word

def noOwners : Owners := { uid := fun _ => 0, gid := fun _ => 0 }

/-- A successful request: an id of -1 leaves the previous one. -/
def Owners.request (o : Owners) (i : Ino) (u g : Word) : Owners where
  uid := if u = minusOne then o.uid else Function.update o.uid i u
  gid := if g = minusOne then o.gid else Function.update o.gid i g

abbrev ChownState := Files × Owners

def chownStep (resolve : Resolve) (s : ChownState) (a : ChownCall × Option Errno) : ChownState :=
  let r := a.1.run resolve s.1 a.2
  let owners := match a.1.file resolve s.1 with
    | some i => if r.2 = 0 then s.2.request i a.1.owner a.1.group else s.2
    | none => s.2
  (r.1, owners)

/-- A call on a file there is, which the host obeys or refuses with `EPERM`, asks for no owner but 0. -/
def AsksRoot (resolve : Resolve) (s : ChownState) (a : ChownCall × Option Errno) : Prop :=
  (a.1.file resolve s.1).isSome → a.2 = none ∨ a.2 = some .EPERM →
    (a.1.owner = 0 ∨ a.1.owner = minusOne) ∧ (a.1.group = 0 ∨ a.1.group = minusOne)

def Unowned (fs : Files) : Prop := ∀ i, (fs.inode i).get .uid = minusOne ∧ (fs.inode i).get .gid = minusOne

theorem nextChown_get (fs : Files) (i : Ino) (u g : Word) (v : Option Errno) (a : Attr) (j : Ino) :
    ((nextChown fs i u g v).1.inode j).get a = (fs.inode j).get a := by
  cases v with
  | some e => rfl
  | none =>
    by_cases h : j = i
    · subst h; simp only [nextChown, Files.modify_self]; rfl
    · simp only [nextChown, Files.modify_ne fs h]

theorem getAttr_unowned {fs : Files} (h : ∀ i, (fs.inode i).get a = minusOne) (buf : Str) :
    getAttr a fs buf = minusOne := by
  unfold getAttr; split
  · exact h _
  · rfl

theorem setAttr_same_get {a b : Attr} {fs : Files} (h : ∀ i, (fs.inode i).get a = minusOne) (buf : Str) (w : Word)
    (i : Ino) : ((setAttr b fs buf w w).inode i).get a = minusOne := by
  rw [setAttr_inode]
  split
  · by_cases hab : a = b
    · subst hab; rw [Inode.get_set, if_pos rfl]
    · rw [Inode.get_set_ne _ hab]; exact h i
  · exact h i

theorem chownBuf_unowned {fs : Files} (h : Unowned fs) (target : Option Ino) (buf : Str) (u g : Word)
    (v : Option Errno) : Unowned (chownBuf fs target buf u g v).1 := by
  have hu : getUid fs buf = minusOne := getAttr_unowned (fun i => (h i).1) buf
  have hg : getGid fs buf = minusOne := getAttr_unowned (fun i => (h i).2) buf
  simp only [chownBuf, hu, hg, if_true]
  -- the owner handed to the host is the requested one, so both setters delete
  generalize hf : (match target with
    | some i => nextChown fs i u g v
    | none => (fs, some Errno.ENOENT)) = r
  have hr : ∀ a, (∀ i, (fs.inode i).get a = minusOne) → ∀ i, (r.1.inode i).get a = minusOne := by
    intro a ha i
    rw [← hf]
    cases target with
    | none => exact ha i
    | some t => rw [nextChown_get]; exact ha i
  intro i
  constructor
  · exact setAttr_same_get (setAttr_same_get (hr .uid fun i => (h i).1) buf u) buf g i
  · exact setAttr_same_get (setAttr_same_get (hr .gid fun i => (h i).2) buf u) buf g i

theorem ChownCall.run_unowned (resolve : Resolve) {fs : Files} (h : Unowned fs) (c : ChownCall) (v : Option Errno) :
    Unowned (c.run resolve fs v).1 := by
  cases c with
  | chown path u g | lchown path u g | fchownat dfd path u g atflags =>
    simp only [ChownCall.run, Iamroot.chown, Iamroot.lchown, Iamroot.fchownat]
    split
    · exact h
    · exact chownBuf_unowned h _ _ _ _ _
  | fchown fd u g =>
    simp only [ChownCall.run, Iamroot.fchown]
    split
    · exact h
    · exact chownBuf_unowned h _ _ _ _ _

theorem Owners.request_zero {o : Owners} {i : Ino} {u g : Word} (hu : u = 0 ∨ u = minusOne) (hg : g = 0 ∨ g = minusOne)
    (ho : o = noOwners) : o.request i u g = noOwners := by
  subst ho
  rcases hu with rfl | rfl <;> rcases hg with rfl | rfl <;>
    simp [Owners.request, noOwners, minusOne]

theorem forgiven_eq_zero {v : Option Errno} : forgiven v = 0 ↔ v = none ∨ v = some .EPERM := by
  cases v with
  | none => simp [forgiven]
  | some e => by_cases h : e = .EPERM <;> simp [forgiven, h]

theorem chownBuf_ret (fs : Files) (i : Ino) (buf : Str) (u g : Word) (v : Option Errno) :
    (chownBuf fs (some i) buf u g v).2 = forgiven v := by
  cases v <;> rfl

theorem ChownCall.run_ret (resolve : Resolve) {fs : Files} {c : ChownCall} {i : Ino} (v : Option Errno)
    (h : c.file resolve fs = some i) : (c.run resolve fs v).2 = forgiven v := by
  cases c with
  | chown path u g | lchown path u g | fchownat dfd path u g atflags =>
    obtain ⟨buf, hb, hn⟩ := Option.bind_eq_some_iff.mp h
    simp only [ChownCall.run, Iamroot.chown, Iamroot.lchown, Iamroot.fchownat, hb, hn]
    exact chownBuf_ret ..
  | fchown fd u g =>
    obtain ⟨⟨j, buf⟩, hf, rfl⟩ := Option.map_eq_some_iff.mp h
    simp only [ChownCall.run, Iamroot.fchown, hf]
    exact chownBuf_ret ..

theorem chownStep_inv (resolve : Resolve) (s : ChownState) (a : ChownCall × Option Errno)
    (hs : Unowned s.1 ∧ s.2 = noOwners) (ha : AsksRoot resolve s a) :
    Unowned (chownStep resolve s a).1 ∧ (chownStep resolve s a).2 = noOwners := by
  refine ⟨ChownCall.run_unowned resolve hs.1 _ _, ?_⟩
  simp only [chownStep]
  split
  · rename_i i hi
    rw [ChownCall.run_ret resolve _ hi]
    split
    · rename_i h0
      obtain ⟨hu, hg⟩ := ha (by rw [hi]; rfl) (forgiven_eq_zero.mp h0)
      exact Owners.request_zero hu hg hs.2
    · exact hs.2
  · exact hs.2

/-- What a stat of any file reports is what was last requested. -/
def OwnersSeen (s : ChownState) : Prop :=
  ∀ i, (s.1.inode i).seen.uid = s.2.uid i ∧ (s.1.inode i).seen.gid = s.2.gid i

theorem ownersSeen_of_unowned {s : ChownState} (h : Unowned s.1 ∧ s.2 = noOwners) : OwnersSeen s := by
  intro i
  rw [Inode.seen_uid, Inode.seen_gid, (h.1 i).1, (h.1 i).2, h.2]
  simp [noOwners]

/-- **Ownership over a run.** While the successful calls ask for no owner but 0,
every stat reports the owner last requested. -/
theorem owner_run (resolve : Resolve) (fs : Files) (hfs : Unowned fs) (l : List (ChownCall × Option Errno))
    (hl : Run.Meets (chownStep resolve) (AsksRoot resolve) (fs, noOwners) l)
    (c : StatCall) (v : Option Errno) (st : Stat) (i : Ino)
    (hst : c.run resolve (Run.exec (chownStep resolve) (fs, noOwners) l).1 v = some st)
    (hi : c.file resolve (Run.exec (chownStep resolve) (fs, noOwners) l).1 = some i) :
    st.uid = (Run.exec (chownStep resolve) (fs, noOwners) l).2.uid i ∧
      st.gid = (Run.exec (chownStep resolve) (fs, noOwners) l).2.gid i := by
  have h := Run.Meets.inv (chownStep_inv resolve) l _ ⟨hfs, rfl⟩ hl
  rw [StatCall.run_eq resolve _ c hst hi]
  exact ownersSeen_of_unowned h i

theorem asksRoot_of_seen (resolve : Resolve) (s : ChownState) (a : ChownCall × Option Errno)
    (hs : Unowned s.1 ∧ s.2 = noOwners) (hJ : OwnersSeen (chownStep resolve s a)) : AsksRoot resolve s a := by
  intro hsome hv
  obtain ⟨i, hi⟩ := Option.isSome_iff_exists.mp hsome
  have h0 := (ChownCall.run_ret resolve a.2 hi).trans (forgiven_eq_zero.mpr hv)
  have hun := ChownCall.run_unowned resolve hs.1 a.1 a.2
  have hJi := hJ i
  simp only [chownStep, hi, h0, if_true, hs.2, Inode.seen_uid, Inode.seen_gid, (hun i).1, (hun i).2, ne_eq,
    not_true, if_false, Owners.request, noOwners] at hJi
  constructor
  · by_cases hu : a.1.owner = minusOne
    · exact Or.inr hu
    · simp only [hu, if_false, Function.update_self] at hJi; exact Or.inl hJi.1.symm
  · by_cases hg : a.1.group = minusOne
    · exact Or.inr hg
    · simp only [hg, if_false, Function.update_self] at hJi; exact Or.inl hJi.2.symm

/-- The condition of `owner_run` is exact. -/
theorem owner_run_iff (resolve : Resolve) (fs : Files) (hfs : Unowned fs) (l : List (ChownCall × Option Errno)) :
    Run.Meets (chownStep resolve) (AsksRoot resolve) (fs, noOwners) l ↔
      ∀ l₁, l₁ <+: l → OwnersSeen (Run.exec (chownStep resolve) (fs, noOwners) l₁) :=
  Run.Meets.iff (chownStep_inv resolve) (fun _ => ownersSeen_of_unowned) (asksRoot_of_seen resolve) l _ ⟨hfs, rfl⟩

theorem owner_run_root : ∃ st, StatCall.run asIs
    (Run.exec (chownStep asIs) (oneFile, noOwners) [(.chown ['/', 'f'] 0 0, some .EPERM)]).1 none (.stat ['/', 'f']) = some st ∧
      st.uid = 0 := by
  refine ⟨_, rfl, ?_⟩
  exact (owner_run asIs oneFile (fun _ => ⟨rfl, rfl⟩) [(.chown ['/', 'f'] 0 0, some .EPERM)]
    ⟨fun _ _ => ⟨Or.inl rfl, Or.inl rfl⟩, trivial⟩ (.stat ['/', 'f']) none _ 0 rfl rfl).1

/-- A first `chown` of `/f` to 1000 succeeds, and the next `stat` reports 0. -/
theorem owner_lost : ∃ st, StatCall.run asIs
    (Run.exec (chownStep asIs) (oneFile, noOwners) [(.chown ['/', 'f'] 1000 1000, some .EPERM)]).1 none
      (.stat ['/', 'f']) = some st ∧
    ((ChownCall.chown ['/', 'f'] 1000 1000).run asIs oneFile (some .EPERM)).2 = 0 ∧
    (Run.exec (chownStep asIs) (oneFile, noOwners) [(.chown ['/', 'f'] 1000 1000, some .EPERM)]).2.uid 0 = 1000 ∧
    st.uid = 0 := ⟨_, rfl, rfl, rfl, rfl⟩

end Iamroot
