import Iamroot.Mode
import Iamroot.Owner

/-!
# Metadata calls that fail

The wrappers of `chmod`, `chown`, `open` and `mkdirat` end with the setters of the
attributes, whatever the host's call returned. A call that fails has changed no
attribute exactly when the setters find what they would leave.
-/

namespace Iamroot

inductive MetaCall where
  | perms (c : ModeCall)
  | owners (c : ChownCall)

/-- One `__set_mode`, `__set_uid` or `__set_gid`: what was asked for, and what the host got. -/
structure Setter where
  attr : Attr
  old : Word
  new : Word

namespace MetaCall

variable (resolve : Resolve) (fs : Files)

def run (v : Option Errno) : MetaCall → Files × Int
  | perms c => c.run resolve fs v
  | owners c => c.run resolve fs v

def modeSetters : Resolved → Str × List Setter
  | .chmod _ dir buf mode => (buf, [⟨.mode, mode, warnIfInsuffisantUserMode dir mode⟩])
  | .open_ buf oflags mode => (buf, [⟨.mode, (openModes fs buf oflags mode).1, (openModes fs buf oflags mode).2⟩])
  | .mkdir buf mode => (buf, [⟨.mode, mode, warnIfInsuffisantUserMode (isDirectory fs buf) mode⟩])

def ownerBuf : ChownCall → Option Str
  | .chown path _ _ => resolve fs atFdcwd path 0 0
  | .lchown path _ _ => resolve fs atFdcwd path atSymlinkNofollow prNowalkalong
  | .fchown fd _ _ => (fs.fds fd).map Prod.snd
  | .fchownat dfd path _ _ atflags => resolve fs dfd path atflags 0

/-- The host gets the owner of the attribute, or the one that is asked for. -/
def ownerSetters (c : ChownCall) (buf : Str) : List Setter :=
  [⟨.uid, c.owner, if getUid fs buf = minusOne then c.owner else getUid fs buf⟩,
    ⟨.gid, c.group, if getGid fs buf = minusOne then c.group else getGid fs buf⟩]

def setters : MetaCall → Option (Str × List Setter)
  | perms c => (c.resolved resolve fs).map (modeSetters fs)
  | owners c => (ownerBuf resolve fs c).map fun buf => (buf, ownerSetters fs c buf)

end MetaCall

def SameAttrs (fs fs' : Files) : Prop := ∀ i a, (fs'.inode i).attr a = (fs.inode i).attr a

/-! ## The setters -/

namespace Setter

/-- The attribute is as the setter leaves it: absent when the host got what was asked for. -/
def Idle (s : Setter) (n : Inode) : Prop := n.attr s.attr = if s.old = s.new then none else some (.word s.old)

def apply (fs : Files) (buf : Str) (s : Setter) : Files := setAttr s.attr fs buf s.old s.new

variable {fs fs' : Files} {buf : Str} {s t : Setter}

theorem set_attr (n : Inode) (a b : Attr) (old new : Word) :
    (n.set a old new).attr b = if b = a then (if old = new then none else some (.word old)) else n.attr b := by
  show Function.update n.attr a _ b = _
  rw [Function.update_apply]

theorem apply_attr (i : Ino) (a : Attr) : ((apply fs buf s).inode i).attr a =
    if fs.names buf = some i ∧ a = s.attr then (if s.old = s.new then none else some (.word s.old))
    else (fs.inode i).attr a := by
  rw [apply, setAttr_inode]
  by_cases h : fs.names buf = some i
  · rw [if_pos h, set_attr]
    simp [h]
  · rw [if_neg h, if_neg fun h' => h h'.1]

/-- One setter changes nothing exactly when it is idle. -/
theorem apply_same_iff : SameAttrs fs (apply fs buf s) ↔ ∀ i, fs.names buf = some i → s.Idle (fs.inode i) := by
  constructor
  · intro h i hi
    have hs := h i s.attr
    rw [apply_attr, if_pos ⟨hi, rfl⟩] at hs
    exact hs.symm
  · intro h i a
    rw [apply_attr]
    split
    · rename_i hc
      rw [hc.2]
      exact (h i hc.1).symm
    · rfl

theorem apply_two_same_iff (hne : s.attr ≠ t.attr) : SameAttrs fs (apply (apply fs buf s) buf t) ↔
    ∀ i, fs.names buf = some i → s.Idle (fs.inode i) ∧ t.Idle (fs.inode i) := by
  have hnames : (apply fs buf s).names = fs.names := setAttr_names _ _ _ _ _
  constructor
  · intro h i hi
    have hs := h i s.attr
    have ht := h i t.attr
    rw [apply_attr, hnames, if_neg fun hc => hne hc.2, apply_attr, if_pos ⟨hi, rfl⟩] at hs
    rw [apply_attr, hnames, if_pos ⟨hi, rfl⟩] at ht
    exact ⟨hs.symm, ht.symm⟩
  · intro h
    have h1 : SameAttrs fs (apply fs buf s) := apply_same_iff.mpr fun i hi => (h i hi).1
    have h2 : SameAttrs (apply fs buf s) (apply (apply fs buf s) buf t) := by
      refine apply_same_iff.mpr fun i hi => ?_
      rw [hnames] at hi
      have ht := (h i hi).2
      unfold Idle at ht ⊢
      rw [h1 i t.attr, ht]
    exact fun i a => (h2 i a).trans (h1 i a)

end Setter

/-! ## A call that fails -/

def MetaCall.Idle (resolve : Resolve) (fs : Files) (c : MetaCall) : Prop :=
  ∀ buf l, c.setters resolve fs = some (buf, l) → ∀ i, fs.names buf = some i → ∀ s ∈ l, s.Idle (fs.inode i)

section
variable {resolve : Resolve} {fs : Files} {v : Option Errno} {buf : Str}

theorem nextChmod_failed {i : Ino} {mode : Word} (h : forgiven (nextChmod fs i mode v).2 = -1) : (nextChmod fs i mode v).1 = fs := by
  cases v with
  | none => simp [nextChmod, forgiven] at h
  | some e => rfl

theorem nextOpen_failed {oflags mode : Word} (h : (nextOpen fs buf oflags mode v).2 = -1) :
    (nextOpen fs buf oflags mode v).1 = fs := by
  cases v with
  | some e => rfl
  | none =>
    unfold nextOpen at h ⊢
    dsimp only at h ⊢
    cases hn : fs.names buf with
    | some i =>
      simp only [hn] at h ⊢
      split_ifs at h ⊢
      rfl
    | none =>
      simp only [hn] at h ⊢
      split_ifs at h ⊢
      rfl

theorem nextMkdirat_failed {mode : Word} (h : (nextMkdirat fs buf mode v).2 = -1) : (nextMkdirat fs buf mode v).1 = fs := by
  rcases nextMkdirat_cases fs buf mode v with ⟨hn, hv, hne, -⟩ | ⟨h, -⟩
  · rw [hv, nextMkdirat, hn] at h
    simp [hne] at h
  · exact h

theorem nextChown_failed {i : Ino} {u g : Word} (h : forgiven (nextChown fs i u g v).2 = -1) : (nextChown fs i u g v).1 = fs := by
  cases v with
  | none => simp [nextChown, forgiven] at h
  | some e => rfl

theorem modeRun_failed {r : Resolved} (h : (r.run fs v).2 = -1) :
    ∃ buf s, MetaCall.modeSetters fs r = (buf, [s]) ∧ (r.run fs v).1 = s.apply fs buf := by
  cases r with
  | chmod target dir buf mode =>
    refine ⟨buf, _, rfl, ?_⟩
    cases target with
    | none => rfl
    | some i =>
      show setMode (nextChmod fs i _ v).1 buf _ _ = _
      rw [nextChmod_failed h]
      rfl
  | open_ buf oflags mode =>
    refine ⟨buf, _, rfl, ?_⟩
    show setMode (nextOpen fs buf oflags _ v).1 buf _ _ = _
    rw [nextOpen_failed h]
    rfl
  | mkdir buf mode =>
    refine ⟨buf, _, rfl, ?_⟩
    show setMode (nextMkdirat fs buf _ v).1 buf _ _ = _
    rw [nextMkdirat_failed h]
    rfl

theorem chownBuf_failed {target : Option Ino} {u g : Word} (h : (chownBuf fs target buf u g v).2 = -1) :
    (chownBuf fs target buf u g v).1 =
      Setter.apply (Setter.apply fs buf ⟨.uid, u, if getUid fs buf = minusOne then u else getUid fs buf⟩) buf
        ⟨.gid, g, if getGid fs buf = minusOne then g else getGid fs buf⟩ := by
  cases target with
  | none => rfl
  | some i =>
    show setGid (setUid (nextChown fs i _ _ v).1 buf _ _) buf _ _ = _
    rw [nextChown_failed h]
    rfl

theorem ownerRun_failed {c : ChownCall} (h : (c.run resolve fs v).2 = -1) :
    (MetaCall.ownerBuf resolve fs c = none ∧ (c.run resolve fs v).1 = fs) ∨
      ∃ buf target, MetaCall.ownerBuf resolve fs c = some buf ∧ (chownBuf fs target buf c.owner c.group v).2 = -1 ∧
        (c.run resolve fs v).1 = (chownBuf fs target buf c.owner c.group v).1 := by
  cases c with
  | chown path u g =>
    simp only [ChownCall.run, chown, MetaCall.ownerBuf] at h ⊢
    cases hb : resolve fs atFdcwd path 0 0 with
    | none => exact .inl ⟨rfl, rfl⟩
    | some buf => exact .inr ⟨buf, fs.names buf, rfl, by rwa [hb] at h, rfl⟩
  | lchown path u g =>
    simp only [ChownCall.run, lchown, MetaCall.ownerBuf] at h ⊢
    cases hb : resolve fs atFdcwd path atSymlinkNofollow prNowalkalong with
    | none => exact .inl ⟨rfl, rfl⟩
    | some buf => exact .inr ⟨buf, fs.names buf, rfl, by rwa [hb] at h, rfl⟩
  | fchown fd u g =>
    simp only [ChownCall.run, fchown, MetaCall.ownerBuf] at h ⊢
    cases hf : fs.fds fd with
    | none => exact .inl ⟨rfl, rfl⟩
    | some f => exact .inr ⟨f.2, some f.1, rfl, by rwa [hf] at h, rfl⟩
  | fchownat dfd path u g atflags =>
    simp only [ChownCall.run, fchownat, MetaCall.ownerBuf] at h ⊢
    cases hb : resolve fs dfd path atflags 0 with
    | none => exact .inl ⟨rfl, rfl⟩
    | some buf => exact .inr ⟨buf, fs.names buf, rfl, by rwa [hb] at h, rfl⟩

/-- A call that returns -1 has left every attribute as it was exactly when its path was not resolved, or names no file,
or each attribute that it sets is already what the setter leaves. -/
theorem metadata_atomic (c : MetaCall) (h : (c.run resolve fs v).2 = -1) :
    SameAttrs fs (c.run resolve fs v).1 ↔ c.Idle resolve fs := by
  cases c with
  | perms c =>
    unfold MetaCall.Idle
    simp only [MetaCall.run, MetaCall.setters, ModeCall.run_eq] at h ⊢
    cases hr : c.resolved resolve fs with
    | none => exact iff_of_true (fun _ _ => rfl) (by simp)
    | some r =>
      rw [hr] at h
      obtain ⟨buf, s, hs, hrun⟩ := modeRun_failed h
      dsimp only
      rw [hrun, Setter.apply_same_iff]
      simp [hs]
  | owners c =>
    unfold MetaCall.Idle
    simp only [MetaCall.run, MetaCall.setters] at h ⊢
    rcases ownerRun_failed h with ⟨hb, hrun⟩ | ⟨buf, target, hb, hret, hrun⟩
    · rw [hrun, hb]
      exact iff_of_true (fun _ _ => rfl) (by simp)
    · rw [hrun, chownBuf_failed hret, Setter.apply_two_same_iff (by simp), hb]
      simp [MetaCall.ownerSetters]

end

/-- `chmod` of a file that is not there. -/
theorem metadata_atomic_missing :
    SameAttrs oneFile ((MetaCall.perms (.chmod ['/', 'g'] 0o555)).run asIs oneFile none).1 :=
  (metadata_atomic (.perms (.chmod ['/', 'g'] 0o555)) (by decide)).mpr fun buf l hl i hi => by
    have hbuf : ['/', 'g'] = buf := congrArg Prod.fst (Option.some.inj hl)
    have hnone : oneFile.names ['/', 'g'] = none := by decide
    rw [← hbuf, hnone] at hi
    simp at hi

/-- `mkdir` of the file `/f` fails, and gives the file another mode. -/
theorem mkdirat_failed_changes :
    ((MetaCall.perms (.mkdirat atFdcwd ['/', 'f'] 0o555)).run asIs oneFile none).2 = -1 ∧
      ¬ SameAttrs oneFile ((MetaCall.perms (.mkdirat atFdcwd ['/', 'f'] 0o555)).run asIs oneFile none).1 := by
  refine ⟨by decide, fun h => ?_⟩
  exact absurd (h 0 .mode) (by decide)

end Iamroot
