import Iamroot.Chroot

/-!
# Directory calls that fail

`chroot` changes the variable last, so a call that fails has changed nothing.
`chdir` and `fchdir` first move the host and then ask it where it is: when it
cannot tell, the call fails in the directory that it has moved to. The kernel
is any that moves by a path or by a descriptor, and stays where it is when it
refuses to.
-/

namespace Iamroot

open FileTree

/-- What the calls ask of the kernel in each of its working directories. -/
structure Kernel (κ : Type) where
  host : κ → Host
  chdir : κ → Str → Except Errno κ
  fchdir : κ → Int → Except Errno κ

structure Guest (κ : Type) where
  root : Option Str
  cwd : κ

namespace Kernel

section
variable {κ : Type} (k : Kernel κ) (re : Option (Str → Bool)) (errno : Option Errno) (fuel : Nat) (nomem : Option Errno)

/-- `__setrootdir`. `nomem` is the failure of an allocation in `_setenv`, which `_unsetenv` does not need. -/
def setrootdir (s : Guest κ) : Option Str → Ret Unit × Guest κ
  | none => (.done (), { s with root := none })
  | some path =>
    match nomem with
    | some e => (.fail e, s)
    | none => (.done (), { s with root := some path })

def chrootdir (s : Guest κ) : Ret Unit × Guest κ :=
  match (k.host s.cwd).getcwd with
  | .error e => (.fail e, s)
  | .ok cwd => if strleq cwd (getrootdir s.root) then (.done (), s) else setrootdir nomem s none

def enter (s : Guest κ) : Except Errno κ → Ret Unit × Guest κ
  | .error e => (.fail e, s)
  | .ok cwd => chrootdir k nomem { s with cwd := cwd }

def resolve (s : Guest κ) (path : Str) : Ret Str :=
  pathResolution (k.host s.cwd) s.root re fuel pathMax 0 errno atFdcwd path

def proceed (s : Guest κ) (siz : Ret Str) (f : Str → Ret Unit × Guest κ) : Ret Unit × Guest κ :=
  match siz with
  | .done buf => f buf
  | .fail e => (.fail e, s)
  | .fault => (.fault, s)
  | .unfinished => (.unfinished, s)

def fpath (s : Guest κ) (fd : Int) : Ret Str :=
  match (k.host s.cwd).fpath fd with
  | .ok buf => .done buf
  | .error e => .fail e

def run (s : Guest κ) : Call → Ret Unit × Guest κ
  | .chroot path => proceed s (k.resolve re errno fuel s path) fun buf => setrootdir nomem s (some buf)
  | .chdir path => proceed s (k.resolve re errno fuel s path) fun buf => k.enter nomem s (k.chdir s.cwd buf)
  | .fchdir fd => proceed s (k.fpath s fd) fun _ => k.enter nomem s (k.fchdir s.cwd fd)

/-! ## What a call leaves when it fails -/

def Atomic (s : Guest κ) (r : Ret Unit × Guest κ) : Prop := ∀ e, r.1 = .fail e → r.2 = s

/-- The host moves to another directory, and cannot tell the path of it. -/
def Lost (s : Guest κ) (r : Except Errno κ) : Prop :=
  ∃ cwd e, r = .ok cwd ∧ cwd ≠ s.cwd ∧ (k.host cwd).getcwd = .error e

def Stranded (s : Guest κ) : Call → Prop
  | .chroot _ => False
  | .chdir path => ∃ buf, k.resolve re errno fuel s path = .done buf ∧ k.Lost s (k.chdir s.cwd buf)
  | .fchdir fd => ∃ buf, k.fpath s fd = .done buf ∧ k.Lost s (k.fchdir s.cwd fd)

variable {k re errno fuel nomem} {s : Guest κ}

theorem atomic_self (r : Ret Unit) : Atomic s (r, s) := fun _ _ => rfl

theorem atomic_setrootdir (path : Option Str) : Atomic s (setrootdir nomem s path) := by
  intro e he
  cases path with
  | none => cases he
  | some path =>
    cases nomem with
    | none => cases he
    | some e => rfl

theorem chrootdir_lost {e : Errno} (h : (k.host s.cwd).getcwd = .error e) : k.chrootdir nomem s = (.fail e, s) := by
  unfold chrootdir
  rw [h]

theorem chrootdir_found {cwd : Str} (h : (k.host s.cwd).getcwd = .ok cwd) (e : Errno) : (k.chrootdir nomem s).1 ≠ .fail e := by
  unfold chrootdir
  rw [h]
  dsimp only
  split
  · intro hc
    cases hc
  · intro hc
    cases hc

theorem atomic_enter_iff {r : Except Errno κ} : Atomic s (k.enter nomem s r) ↔ ¬ k.Lost s r := by
  cases r with
  | error e =>
    refine iff_of_true (atomic_self _) ?_
    rintro ⟨cwd, e, h, -⟩
    cases h
  | ok cwd =>
    cases hc : (k.host cwd).getcwd with
    | ok buf =>
      refine iff_of_true (fun e he => absurd he (chrootdir_found (s := { s with cwd := cwd }) hc e)) ?_
      rintro ⟨cwd', e, h, -, he⟩
      cases h
      rw [hc] at he
      cases he
    | error e =>
      have hrun : k.enter nomem s (.ok cwd) = (.fail e, { s with cwd := cwd }) := chrootdir_lost (s := { s with cwd := cwd }) hc
      rw [hrun]
      constructor
      · intro h hlost
        obtain ⟨cwd', e', hok, hne, -⟩ := hlost
        cases hok
        exact hne (congrArg Guest.cwd (h e rfl))
      · intro h e' _
        by_cases hcwd : cwd = s.cwd
        · rw [hcwd]
        · exact absurd ⟨cwd, e, rfl, hcwd, hc⟩ h

theorem atomic_proceed_iff {siz : Ret Str} {f : Str → Ret Unit × Guest κ} {P : Str → Prop}
    (h : ∀ buf, Atomic s (f buf) ↔ ¬ P buf) : Atomic s (proceed s siz f) ↔ ¬ ∃ buf, siz = .done buf ∧ P buf := by
  cases siz with
  | done buf => simpa [proceed] using h buf
  | fail e => exact iff_of_true (atomic_self _) (by simp)
  | fault => exact iff_of_true (atomic_self _) (by simp)
  | unfinished => exact iff_of_true (atomic_self _) (by simp)

/-- A call that fails has left the directory and the variable as they were exactly when the host was not lost. -/
theorem dirs_atomic (c : Call) : Atomic s (k.run re errno fuel nomem s c) ↔ ¬ k.Stranded re errno fuel s c := by
  cases c with
  | chroot path =>
    have h : ∀ buf, Atomic s (setrootdir nomem s (some buf)) ↔ ¬ False := fun _ => iff_of_true (atomic_setrootdir _) not_false
    rw [run, atomic_proceed_iff h]
    simp [Stranded]
  | chdir path => exact atomic_proceed_iff fun _ => atomic_enter_iff
  | fchdir fd => exact atomic_proceed_iff fun _ => atomic_enter_iff

theorem run_failed_root {c : Call} {e : Errno} (h : (k.run re errno fuel nomem s c).1 = .fail e) :
    (k.run re errno fuel nomem s c).2.root = s.root := by
  by_cases hs : k.Stranded re errno fuel s c
  · cases c with
    | chroot path => exact hs.elim
    | chdir path =>
      obtain ⟨buf, hbuf, cwd, e', hok, -, hlost⟩ := hs
      simp only [run, hbuf, hok, proceed, enter, chrootdir_lost (s := { s with cwd := cwd }) hlost]
    | fchdir fd =>
      obtain ⟨buf, hbuf, cwd, e', hok, -, hlost⟩ := hs
      simp only [run, hbuf, hok, proceed, enter, chrootdir_lost (s := { s with cwd := cwd }) hlost]
  · rw [(dirs_atomic c).mpr hs e h]

end

/-! ## A file system as a kernel -/

def ofFiles (fs : FileSystem) (fds : Int → Option Loc) : Kernel Loc where
  host cwd := fs.host cwd fds
  chdir cwd path := (nextChdir fs ⟨none, cwd⟩ path).map Process.cwd
  fchdir cwd fd := (nextFchdir fs fds ⟨none, cwd⟩ fd).map Process.cwd

end Kernel

section
variable (fs : FileSystem) (fds : Int → Option Loc)

def Process.guest (s : Process) : Guest Loc := ⟨s.root, s.cwd⟩

theorem chrootdir_ofFiles (s : Process) :
    (Kernel.ofFiles fs fds).chrootdir none s.guest = ((chrootdir fs fds s).1, (chrootdir fs fds s).2.guest) := by
  unfold chrootdir Kernel.chrootdir
  show (match (fs.host s.cwd fds).getcwd with | .error e => _ | .ok cwd => _) = _
  cases (fs.host s.cwd fds).getcwd with
  | error e => rfl
  | ok cwd =>
    have hroot : getrootdir s.guest.root = getrootdir s.root := rfl
    dsimp only
    rw [hroot]
    split
    · rfl
    · rfl

variable {fs fds}

theorem nextChdir_ok {s s' : Process} {path : Str} (h : nextChdir fs s path = .ok s') :
    s'.root = s.root ∧ (Kernel.ofFiles fs fds).chdir s.cwd path = .ok s'.cwd := by
  unfold nextChdir at h
  show _ ∧ (nextChdir fs ⟨none, s.cwd⟩ path).map Process.cwd = _
  unfold nextChdir
  cases hl : fs.lookup s.cwd true path with
  | error e => rw [hl] at h; cases h
  | ok ℓ =>
    rw [hl] at h
    simp only [bind, Except.bind] at h ⊢
    split at h
    · cases h
      exact ⟨rfl, rfl⟩
    · cases h
    · cases h

theorem nextChdir_error {s : Process} {path : Str} {e : Errno} (h : nextChdir fs s path = .error e) :
    (Kernel.ofFiles fs fds).chdir s.cwd path = .error e := by
  unfold nextChdir at h
  show (nextChdir fs ⟨none, s.cwd⟩ path).map Process.cwd = _
  unfold nextChdir
  cases hl : fs.lookup s.cwd true path with
  | error e' => rw [hl] at h; cases h; rfl
  | ok ℓ =>
    rw [hl] at h
    simp only [bind, Except.bind] at h ⊢
    split at h
    · cases h
    · cases h; rfl
    · cases h; rfl

theorem nextFchdir_ok {s s' : Process} {fd : Int} (h : nextFchdir fs fds s fd = .ok s') :
    s'.root = s.root ∧ (Kernel.ofFiles fs fds).fchdir s.cwd fd = .ok s'.cwd := by
  unfold nextFchdir at h
  show _ ∧ (nextFchdir fs fds ⟨none, s.cwd⟩ fd).map Process.cwd = _
  unfold nextFchdir
  cases hf : fds fd with
  | none => rw [hf] at h; cases h
  | some ℓ =>
    rw [hf] at h
    dsimp only at h ⊢
    split at h
    · rename_i hd
      cases h
      rw [if_pos hd]
      exact ⟨rfl, rfl⟩
    · cases h

theorem nextFchdir_error {s : Process} {fd : Int} {e : Errno} (h : nextFchdir fs fds s fd = .error e) :
    (Kernel.ofFiles fs fds).fchdir s.cwd fd = .error e := by
  unfold nextFchdir at h
  show (nextFchdir fs fds ⟨none, s.cwd⟩ fd).map Process.cwd = _
  unfold nextFchdir
  cases hf : fds fd with
  | none => rw [hf] at h; cases h; rfl
  | some ℓ =>
    rw [hf] at h
    dsimp only at h ⊢
    split at h
    · cases h
    · rename_i hd
      cases h
      rw [if_neg hd]
      rfl

theorem enter_ofFiles {s s' : Process} (h : s'.root = s.root) :
    (Kernel.ofFiles fs fds).enter none s.guest (.ok s'.cwd) = ((chrootdir fs fds s').1, (chrootdir fs fds s').2.guest) := by
  rw [← chrootdir_ofFiles]
  show Kernel.chrootdir _ _ (Guest.mk s.root s'.cwd) = _
  rw [← h]
  rfl

/-- The call on the file system is the call on its kernel, with memory to spare. -/
theorem Call.run_ofFiles (re : Option (Str → Bool)) (errno : Option Errno) (fuel : Nat) (s : Process) (c : Call) :
    (Kernel.ofFiles fs fds).run re errno fuel none s.guest c =
      ((c.run fs fds re errno fuel s).1, (c.run fs fds re errno fuel s).2.guest) := by
  cases c with
  | chroot path =>
    show Kernel.proceed _ (resolve fs fds re errno fuel s path) _ = _
    rw [Call.run]
    cases resolve fs fds re errno fuel s path with
    | done buf => rfl
    | fail e => rfl
    | fault => rfl
    | unfinished => rfl
  | chdir path =>
    show Kernel.proceed _ (resolve fs fds re errno fuel s path) _ = _
    rw [Call.run]
    cases resolve fs fds re errno fuel s path with
    | done buf =>
      show (Kernel.ofFiles fs fds).enter none s.guest ((Kernel.ofFiles fs fds).chdir s.cwd buf) = _
      dsimp only
      cases hc : nextChdir fs s buf with
      | error e =>
        rw [nextChdir_error hc]
        rfl
      | ok s' =>
        obtain ⟨hroot, hcwd⟩ := @nextChdir_ok fs fds s s' buf hc
        rw [hcwd, enter_ofFiles hroot]
    | fail e => rfl
    | fault => rfl
    | unfinished => rfl
  | fchdir fd =>
    show Kernel.proceed _ (Kernel.fpath _ s.guest fd) _ = _
    rw [Call.run, Kernel.fpath]
    show Kernel.proceed _ (match (fs.host s.cwd fds).fpath fd with | .ok buf => _ | .error e => _) _ = _
    cases (fs.host s.cwd fds).fpath fd with
    | error e => rfl
    | ok buf =>
      show (Kernel.ofFiles fs fds).enter none s.guest ((Kernel.ofFiles fs fds).fchdir s.cwd fd) = _
      dsimp only
      cases hc : nextFchdir fs fds s fd with
      | error e =>
        rw [nextFchdir_error hc]
        rfl
      | ok s' =>
        obtain ⟨hroot, hcwd⟩ := nextFchdir_ok hc
        rw [hcwd, enter_ofFiles hroot]

end

/-! ## A directory that was removed -/

def removedDir : Kernel Bool where
  host removed := {
    readlink := fun _ => .error .EINVAL
    getxattr := fun _ => .error .ENODATA
    getcwd := if removed then .error .ENOENT else .ok ['/']
    fpath := fun fd => if fd = 3 then .ok "/d (deleted)".toList else .error .ENOENT }
  chdir _ _ := .error .ENOENT
  fchdir _ fd := if fd = 3 then .ok true else .error .EBADF

/-- `fchdir(3)` returns -1 in the removed directory. -/
theorem fchdir_removed :
    (removedDir.run none none 0 none ⟨none, false⟩ (.fchdir 3)).1 = .fail .ENOENT ∧
      ¬ Kernel.Atomic ⟨none, false⟩ (removedDir.run none none 0 none ⟨none, false⟩ (.fchdir 3)) := by
  refine ⟨rfl, fun h => ?_⟩
  exact absurd (congrArg Guest.cwd (h .ENOENT rfl)) (by decide)

end Iamroot
