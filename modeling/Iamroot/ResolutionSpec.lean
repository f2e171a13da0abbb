import Iamroot.Reroot
import Iamroot.RealpathText
import Iamroot.Resolution

/-!
# What path resolution returns

Both walks of `path_resolution2` run on the same fuel. What the first one leaves
in the buffer is a canonical path, unless it failed or did not take place, and
the second one leaves a canonical path alone.
-/

namespace Iamroot

open FileTree

/-- With enough fuel, `f` returns `x`. -/
def Settles {α : Type} (f : Nat → α) (x : α) : Prop := ∃ n, ∀ k, f (n + k) = x

theorem Settles.const {α : Type} (x : α) : Settles (fun _ => x) x := ⟨0, fun _ => rfl⟩

theorem Settles.bind {α β : Type} {f : Nat → Ret α} {x : α} {g : Nat → α → Ret β} {y : Ret β} (h : Settles f (.done x))
    (hg : Settles (fun n => g n x) y) : Settles (fun n => (f n).bind (g n)) y := by
  obtain ⟨n, hn⟩ := h
  obtain ⟨m, hm⟩ := hg
  refine ⟨n + m, fun k => ?_⟩
  have h1 := hn (m + k)
  have h2 := hm (n + k)
  rw [← Nat.add_assoc] at h1 h2
  rw [Nat.add_comm m n] at h2
  show (f (n + m + k)).bind (g (n + m + k)) = y
  rw [h1]
  exact h2

theorem Settles.congr {α : Type} {f g : Nat → α} {x : α} (h : ∀ n, f n = g n) (hg : Settles g x) : Settles f x := by
  obtain ⟨n, hn⟩ := hg
  exact ⟨n, fun k => (h _).trans (hn k)⟩

theorem Settles.unique {α : Type} {f : Nat → α} {x y : α} (hx : Settles f x) (hy : Settles f y) : x = y := by
  obtain ⟨n, hn⟩ := hx
  obtain ⟨m, hm⟩ := hy
  rw [← hn m, Nat.add_comm, hm n]

/-- More fuel does not change what has been returned. -/
def Steady {α : Type} (f : Nat → Ret α) : Prop := ∀ n, f n ≠ .unfinished → ∀ k, f (n + k) = f n

theorem Steady.const {α : Type} (x : Ret α) : Steady fun _ => x := fun _ _ _ => rfl

theorem Steady.bind {α β : Type} {f : Nat → Ret α} {g : Nat → α → Ret β} (hf : Steady f) (hg : ∀ a, Steady fun n => g n a) :
    Steady fun n => (f n).bind (g n) := by
  intro n hn k
  show (f (n + k)).bind (g (n + k)) = (f n).bind (g n)
  have hn : (f n).bind (g n) ≠ .unfinished := hn
  cases hx : f n with
  | done a =>
    rw [hx] at hn
    rw [hf n (by rw [hx]; nofun) k, hx]
    exact hg a n hn k
  | fail e => rw [hf n (by rw [hx]; nofun) k, hx]; rfl
  | fault => rw [hf n (by rw [hx]; nofun) k, hx]; rfl
  | unfinished =>
    rw [hx] at hn
    exact absurd rfl hn

/-- Where the fuel lasts, a function returns what it settles on. -/
theorem Steady.settles {α : Type} {f : Nat → Ret α} {x : Ret α} (hf : Steady f) (h : Settles f x) {n : Nat}
    (hn : f n ≠ .unfinished) : f n = x := by
  obtain ⟨m, hm⟩ := h
  rw [← hm n, Nat.add_comm, hf n hn]

theorem loop_steady (h : Host) (env : Option Str) (errnoSave : Option Errno) (atflags : Word) (s : Scan) :
    Steady fun n => loop h env errnoSave atflags n s := by
  intro n
  induction n generalizing s with
  | zero => exact fun hn => absurd rfl hn
  | succ n ih =>
    intro hn k
    have hk : n + 1 + k = n + k + 1 := by omega
    show loop h env errnoSave atflags (n + 1 + k) s = loop h env errnoSave atflags (n + 1) s
    have hn : loop h env errnoSave atflags (n + 1) s ≠ .unfinished := hn
    rw [hk, loop, loop]
    rw [loop] at hn
    cases ht : turn h env errnoSave atflags s with
    | next s' => rw [ht] at hn; exact ih _ hn k
    | restart s' => rw [ht] at hn; exact ih _ hn k
    | leave s' | fail e | fault => rfl

theorem realpathat_steady (h : Host) (env : Option Str) (errno : Option Errno) (path : Str) (atflags : Word) :
    Steady fun n => realpathat h env errno n path atflags := by
  intro n hn k
  show realpathat h env errno (n + k) path atflags = realpathat h env errno n path atflags
  have hn : realpathat h env errno n path atflags ≠ .unfinished := hn
  unfold realpathat at hn ⊢
  simp only at hn ⊢
  split
  · rfl
  · rename_i h0
    rw [if_neg h0] at hn
    split
    · rfl
    · rename_i h1
      rw [if_neg h1] at hn
      have hne : loop h env errno atflags n (initial path errno) ≠ .unfinished := fun e => hn (by rw [e])
      have hl : loop h env errno atflags (n + k) (initial path errno) = loop h env errno atflags n (initial path errno) :=
        loop_steady h env errno atflags _ n hne k
      rw [hl]

theorem walkBuf_steady (h : Host) (env : Option Str) (bufsiz : Nat) (atflags : Word) (errno : Option Errno) (buf : Str) :
    Steady fun n => walkBuf h env n bufsiz atflags errno buf := by
  intro n hn k
  have hn : walkBuf h env n bufsiz atflags errno buf ≠ .unfinished := hn
  show walkBuf h env (n + k) bufsiz atflags errno buf = walkBuf h env n bufsiz atflags errno buf
  unfold walkBuf at hn ⊢
  have hne : realpathat h env errno n buf atflags ≠ .unfinished := fun e => hn (by rw [e])
  have hr : realpathat h env errno (n + k) buf atflags = realpathat h env errno n buf atflags :=
    realpathat_steady h env errno buf atflags n hne k
  rw [hr]

theorem finishBuf_steady (h : Host) (env : Option Str) (re : Option (Str → Bool)) (bufsiz : Nat) (atflags prflags : Word)
    (errno : Option Errno) (isAtrootfd : Bool) (buf : Str) :
    Steady fun n => finishBuf h env re n bufsiz atflags prflags errno isAtrootfd buf := by
  unfold finishBuf
  refine Steady.bind ?_ fun r => ?_
  · by_cases hf : followSymlink atflags = true
    · simp only [hf, if_true]
      exact walkBuf_steady h env bufsiz atflags errno _
    · simp only [hf, if_false, Bool.false_eq_true]
      exact Steady.const _
  · by_cases hw : allowWalkAlong prflags = true
    · simp only [hw, if_true]
      exact Steady.bind (walkBuf_steady h env bufsiz atflags r.2 _) fun _ => Steady.const _
    · simp only [hw, if_false, Bool.false_eq_true]
      exact Steady.const _

theorem pathResolution2_steady (h : Host) (env : Option Str) (re : Option (Str → Bool)) (bufsiz : Nat)
    (atflags prflags : Word) (errno : Option Errno) (dfd : Int) (path : Str) :
    Steady fun n => pathResolution2 h env re n bufsiz atflags prflags errno dfd path := by
  have hf : ∀ b buf, Steady fun n => finishBuf h env re n bufsiz atflags prflags errno b buf :=
    finishBuf_steady h env re bufsiz atflags prflags errno
  unfold pathResolution2
  split
  · exact Steady.const _
  split
  · exact Steady.const _
  split
  · exact Steady.const _
  split
  · exact Steady.const _
  split
  · simp only
    cases snprintf (rootOf env ++ if rootOf env ≠ [] ∧ strleq path (rootOf env) = true then
      path.drop (strlen (rootOf env)) else path) bufsiz with
    | error e => exact Steady.const _
    | ok buf => exact hf false buf
  split
  · cases h.fpath dfd with
    | error e => exact Steady.const _
    | ok dirbuf =>
      by_cases ha : isAbs dirbuf = false
      · simp only [ha, if_true]
        exact Steady.const _
      · simp only [ha]
        cases snprintf (dirbuf ++ '/' :: path) bufsiz with
        | error e => exact Steady.const _
        | ok buf => exact hf _ buf
  · exact hf false _

section
variable {fs : FileSystem} {env : Option Str} {re : Option (Str → Bool)} {cwd : Loc} {fds : Int → Option Loc}
  {bufsiz : Nat} {atflags prflags : Word} {errno : Option Errno}

theorem strncpy_short {s : Str} {n : Nat} (hn : pathMax ≤ n) (hs : s.length < pathMax) : strncpy s n = s := by
  rw [strncpy]
  exact List.take_of_length_le (by omega)

def leaves (cwd : Loc) (bufsiz : Nat) (buf : Str) (errno : Option Errno) : Except Err Place → Str × Option Errno
  | .ok o => (strncpy (o.final cwd) bufsiz, errno)
  | .error e => (buf, some (Err.errno e))

theorem walkBuf_settles {buf : Str} {r : Except Err Place} (hattr : followSymlink atflags = true → fs.NoAttr)
    (hcwd : isAbs buf = false → fs.entry cwd = some .dir ∧ (pathOf cwd).length < pathMax)
    (hroot : nul ∉ getrootdir env) (hne : buf ≠ []) (hlen : buf.length < pathMax) (hnul : nul ∉ buf)
    (hr : resolved (fs.walkTree env atflags) cwd buf = some r) (fds : Int → Option Loc) (bufsiz : Nat)
    (errno : Option Errno) :
    Settles (fun fuel => walkBuf (fs.host cwd fds) env fuel bufsiz atflags errno buf)
      (.done (leaves cwd bufsiz buf errno r)) := by
  obtain ⟨n, hn⟩ := realpathat_fs hattr hcwd hroot fds errno hne hlen hnul hr
  refine ⟨n, fun k => ?_⟩
  show walkBuf (fs.host cwd fds) env (n + k) bufsiz atflags errno buf = _
  rw [walkBuf, hn k]
  cases r <;> rfl

/-- The locations of which `path_resolution2` leaves the path alone. -/
structure Canonical (fs : FileSystem) (ℓ : Loc) : Prop where
  valid : ValidLoc ℓ
  clear : fs.tree.Clear ℓ
  short : (pathOf ℓ).length < pathMax

theorem FileSystem.clear_walkTree {ℓ : Loc} (h : fs.tree.Clear ℓ) : (fs.walkTree env atflags).Clear ℓ := by
  unfold FileSystem.walkTree
  split
  · exact (FileSystem.clear_seen env).mpr h
  · exact FileSystem.clear_blank ℓ

theorem walkBuf_canonical {ℓ : Loc} (hattr : followSymlink atflags = true → fs.NoAttr) (hroot : nul ∉ getrootdir env) (hbuf : pathMax ≤ bufsiz)
    (hℓ : Canonical fs ℓ) :
    Settles (fun fuel => walkBuf (fs.host cwd fds) env fuel bufsiz atflags errno (pathOf ℓ)) (.done (pathOf ℓ, errno)) := by
  have hr : resolved (fs.walkTree env atflags) cwd (pathOf ℓ) = some (.ok (.ofLoc ℓ)) :=
    resolved_pathOf hℓ.valid (FileSystem.clear_walkTree hℓ.clear) hℓ.short
  have h := walkBuf_settles hattr (fun h => by rw [isAbs_pathOf] at h; cases h) hroot (pathOf_ne_nil ℓ) hℓ.short
    (nul_not_mem_pathOf hℓ.valid) hr fds bufsiz errno
  simp only [leaves, Place.ofLoc_final, strncpy_short hbuf hℓ.short] at h
  exact h

/-! ## The two walks -/

variable {R : RootDir}

theorem rootOf_root (R : RootDir) : rootOf (some R.path) = R.path := by
  have hg : getrootdir (some R.path) = R.path := rfl
  rw [rootOf, hg, streq_false R.path_ne_slash]
  rfl

theorem RootDir.path_ne_nil (R : RootDir) : R.path ≠ [] := fun h => by
  have := R.path_pos
  rw [h] at this
  cases this

theorem RootDir.noNul (R : RootDir) : nul ∉ getrootdir (some R.path) := nul_not_mem_render R.valid

/-- The end of `path_resolution2`, from what its walks leave. -/
theorem finishBuf_run {h : Host} {isAtrootfd : Bool} {buf buf1 buf2 buf3 x : Str} {e : Option Errno}
    (h1 : Settles (fun fuel => if followSymlink atflags then walkBuf h env fuel bufsiz atflags errno
      (pathSanitize buf) else .done (pathSanitize buf, errno)) (.done (buf1, e)))
    (h2 : (if rootOf env ≠ [] ∧ isAtrootfd = true ∧ strleq buf1 (rootOf env) = false then strncpy (rootOf env) bufsiz
      else buf1) = buf2)
    (h3 : (if strleq buf2 (rootOf env) = true ∧ allowIgnore prflags = true ∧
      ignore re (buf2.drop (strlen (rootOf env))) = true then (striprootdir env buf2).getD buf2 else buf2) = buf3)
    (h4 : if allowWalkAlong prflags then
      ∃ e', Settles (fun fuel => walkBuf h env fuel bufsiz atflags e buf3) (.done (x, e')) else x = buf3) :
    Settles (fun fuel => finishBuf h env re fuel bufsiz atflags prflags errno isAtrootfd buf) (.done x) := by
  unfold finishBuf
  refine Settles.bind h1 ?_
  simp only [h2, h3]
  by_cases hw : allowWalkAlong prflags = true
  · rw [if_pos hw] at h4
    simp only [hw, if_true]
    obtain ⟨e', h4⟩ := h4
    exact h4.bind (Settles.const _)
  · rw [if_neg hw] at h4
    simp only [hw, if_false, Bool.false_eq_true]
    rw [h4]
    exact Settles.const _

theorem finishBuf_settles {h : Host} {isAtrootfd : Bool} {buf buf1 buf2 x : Str} {e : Option Errno}
    (h1 : Settles (fun fuel => if followSymlink atflags then walkBuf h (some R.path) fuel bufsiz atflags errno
      (pathSanitize buf) else .done (pathSanitize buf, errno)) (.done (buf1, e)))
    (h2 : (if isAtrootfd = true ∧ strleq buf1 R.path = false then strncpy R.path bufsiz else buf1) = buf2)
    (hign : allowIgnore prflags = true → strleq buf2 R.path = true → ignore re (buf2.drop R.path.length) = false)
    (h3 : if allowWalkAlong prflags then
      ∃ e', Settles (fun fuel => walkBuf h (some R.path) fuel bufsiz atflags e buf2) (.done (x, e')) else x = buf2) :
    Settles (fun fuel => finishBuf h (some R.path) re fuel bufsiz atflags prflags errno isAtrootfd buf) (.done x) := by
  refine finishBuf_run h1 (by simpa only [rootOf_root, ne_eq, R.path_ne_nil, not_false_eq_true, true_and] using h2)
    (if_neg ?_) h3
  rw [rootOf_root, R.strlen_path]
  rintro ⟨hp, ha, hr⟩
  rw [hign ha hp] at hr
  cases hr

/-! ## Before the walks -/

/-- The path does not take one of the ways out at the start. -/
structure Ordinary (re : Option (Str → Bool)) (prflags : Word) (path : Str) : Prop where
  short : path.length < pathMax
  magic : allowMagicLinks prflags = true → path ≠ procRoot ∧ ¬ devFd <+: path
  kept : allowIgnore prflags = true → ignore re path = false

theorem Ordinary.guards {path : Str} {α : Type} (h : Ordinary re prflags path) (a b c d x : α) :
    (if strnlen path pathMax = pathMax then a
      else if allowMagicLinks prflags ∧ streq path procRoot then b
      else if allowMagicLinks prflags ∧ strneq path devFd devFd.length then c
      else if allowIgnore prflags ∧ ignore re path then d else x) = x := by
  have hlen : strnlen path pathMax ≠ pathMax := by
    have := h.short
    unfold strnlen
    omega
  have hproc : ¬ (allowMagicLinks prflags = true ∧ streq path procRoot = true) := fun hm =>
    (h.magic hm.1).1 ((streq_iff _ _).mp hm.2)
  have hdev : ¬ (allowMagicLinks prflags = true ∧ strneq path devFd devFd.length = true) := by
    rintro ⟨hm, hp⟩
    refine (h.magic hm).2 ?_
    rw [strneq, List.take_length, beq_iff_eq] at hp
    exact take_length_prefix.mp hp
  have hign : ¬ (allowIgnore prflags = true ∧ ignore re path = true) := by
    rintro ⟨ha, hi⟩
    rw [h.kept ha] at hi
    cases hi
  rw [if_neg hlen, if_neg hproc, if_neg hdev, if_neg hign]

theorem snprintf_short {s : Str} (hbuf : pathMax ≤ bufsiz) (hs : s.length < pathMax) : snprintf s bufsiz = .ok s :=
  if_pos (by omega)

/-- What is put in the buffer for a path that is not relative to a descriptor. -/
def textOf (env : Option Str) (path : Str) : Str :=
  if isAbs path then
    rootOf env ++ if rootOf env ≠ [] ∧ strleq path (rootOf env) = true then path.drop (strlen (rootOf env)) else path
  else path

theorem pathResolution2_text {h : Host} {fuel : Nat} {path : Str} (ho : Ordinary re prflags path)
    (hbuf : pathMax ≤ bufsiz) :
    pathResolution2 h env re fuel bufsiz atflags prflags errno atFdcwd path =
      if (textOf env path).length < bufsiz then
        finishBuf h env re fuel bufsiz atflags prflags errno false (textOf env path)
      else .fail .ENAMETOOLONG := by
  unfold pathResolution2
  rw [ho.guards]
  by_cases ha : isAbs path = true
  · have ht : textOf env path = rootOf env ++ if rootOf env ≠ [] ∧ strleq path (rootOf env) = true then
        path.drop (strlen (rootOf env)) else path := if_pos ha
    rw [if_pos ha]
    simp only [← ht, snprintf]
    by_cases hl : (textOf env path).length < bufsiz <;> simp only [hl, if_true, if_false]
  · have ht : textOf env path = path := if_neg ha
    have hs := ho.short
    rw [if_neg ha, if_neg (not_not_intro rfl), ht, if_pos (by omega), strncpy_short hbuf hs]

/-- Both walks followed on texts. -/
theorem pathResolution_text {h : Host} {fuel : Nat} {path buf buf' : Str} (ho : Ordinary re 0 path) (hbuf : pathMax ≤ bufsiz)
    (hlen : (textOf env path).length < bufsiz) (hf : followSymlink atflags = true)
    (h1 : (walkText h env fuel (pathSanitize (textOf env path)) atflags).map (Reading.absolute h) = some (.done buf))
    (hs : buf.length < pathMax ∧ buf'.length < pathMax)
    (hign : strleq buf (rootOf env) = true → ignore re (buf.drop (strlen (rootOf env))) = false)
    (h2 : (walkText h env fuel buf atflags).map (Reading.absolute h) = some (.done buf')) :
    pathResolution h env re fuel bufsiz atflags errno atFdcwd path = .done buf' := by
  have hw : ∀ {p q : Str} (e : Option Errno), q.length < pathMax →
      (walkText h env fuel p atflags).map (Reading.absolute h) = some (.done q) →
      walkBuf h env fuel bufsiz atflags e p = .done (q, e) := by
    intro p q e hq hwalk
    rw [walkBuf, realpathat_text hwalk]
    exact congrArg Ret.done (Prod.ext (strncpy_short hbuf hq) rfl)
  rw [pathResolution, pathResolution2_text ho hbuf, if_pos hlen, finishBuf]
  simp only [hf, if_true, hw errno hs.1 h1, Ret.bind]
  have hkeep : (if rootOf env ≠ [] ∧ false = true ∧ strleq buf (rootOf env) = false then strncpy (rootOf env) bufsiz else buf) =
      buf := if_neg fun hc => Bool.false_ne_true hc.2.1
  have hno : ¬ (strleq buf (rootOf env) = true ∧ allowIgnore 0 = true ∧ ignore re (buf.drop (strlen (rootOf env))) = true) := by
    rintro ⟨hp, -, hi⟩
    rw [hign hp] at hi
    cases hi
  have hwalk : allowWalkAlong 0 = true := rfl
  rw [hkeep, if_neg hno, if_pos hwalk, hw errno hs.2 h2]

/-- An absolute path that does not begin with the root directory. -/
theorem pathResolution2_abs {h : Host} {fuel : Nat} {dfd : Int} {path : Str} (ho : Ordinary re prflags path)
    (hbuf : pathMax ≤ bufsiz) (ha : isAbs path = true) (hp : ¬ R.path <+: path) (hs : (R.path ++ path).length < pathMax) :
    pathResolution2 h (some R.path) re fuel bufsiz atflags prflags errno dfd path =
      finishBuf h (some R.path) re fuel bufsiz atflags prflags errno false (R.path ++ path) := by
  have hp' : ¬ (R.path ≠ [] ∧ strleq path R.path = true) := by
    rw [strleq_iff R.path_short]
    exact fun h => hp h.2
  unfold pathResolution2
  rw [ho.guards, if_pos ha]
  simp only [rootOf_root, if_neg hp', snprintf_short hbuf hs]

end

end Iamroot
