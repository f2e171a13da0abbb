import Iamroot.ResolutionSpec

/-!
# The buffer of path resolution

`path_resolution2` fills a buffer that may be shorter than `PATH_MAX`: that of a
socket address is. The copies that are made by `_snprintf` are checked. Those of a
relative path and of what the walks give are made by `_strncpy`, which cuts them
silently. Here the result is compared with the one for a buffer without a limit.
-/

namespace Iamroot

def sunPathSiz : Nat := 108

section
variable (h : Host) (env : Option Str) (re : Option (Str → Bool)) (fuel : Nat)

/-- What `bind` and `connect` put in `sun_path`, from the value of `IAMROOT_PATH_RESOLUTION_AF_UNIX`. -/
def sunPath (errno : Option Errno) (afUnix : Option Str) (path : Str) : Ret Str :=
  match pathResolution h env re fuel sunPathSiz 0 errno atFdcwd path, afUnix with
  | .fail .ENAMETOOLONG, some dir =>
    match snprintf (dir ++ '/' :: basename path) sunPathSiz with
    | .error e => .fail e
    | .ok buf => .done buf
  | siz, _ => siz

/-! ## Without a limit -/

/-- How a call begins: it fails, copies a string as it is, or goes on from a string that was
printed into the buffer, or copied there. -/
inductive Start where
  | fail (e : Errno)
  | asIs (s : Str)
  | printed (isAtrootfd : Bool) (s : Str)
  | copied (s : Str)

variable (atflags prflags : Word)

def start (dfd : Int) (path : Str) : Start :=
  if strnlen path pathMax = pathMax then .fail .ENAMETOOLONG
  else if allowMagicLinks prflags ∧ streq path procRoot then .asIs ['/']
  else if allowMagicLinks prflags ∧ strneq path devFd devFd.length then .asIs path
  else if allowIgnore prflags ∧ ignore re path then .asIs path
  else if isAbs path then
    .printed false (rootOf env ++
      if rootOf env ≠ [] ∧ strleq path (rootOf env) then path.drop (strlen (rootOf env)) else path)
  else if dfd ≠ atFdcwd then
    match h.fpath dfd with
    | .error e => .fail e
    | .ok dirbuf =>
      if isAbs dirbuf = false then .asIs path else .printed (streq (rootOf env) dirbuf) (dirbuf ++ '/' :: path)
  else .copied path

def walkFull (errno : Option Errno) (buf : Str) : Ret (Str × Option Errno) :=
  match realpathat h env errno fuel buf atflags with
  | .done tmp => .done (tmp, errno)
  | .fail e => .done (buf, some e)
  | .fault => .fault
  | .unfinished => .unfinished

def firstWalk (errno : Option Errno) (buf : Str) : Ret (Str × Option Errno) :=
  if followSymlink atflags then walkFull h env fuel atflags errno (pathSanitize buf) else .done (pathSanitize buf, errno)

/-- Between the walks: the root directory in place of a path out of it, and the root directory taken off
a path to ignore. -/
def between (isAtrootfd : Bool) (buf : Str) : Str :=
  let buf := if rootOf env ≠ [] ∧ isAtrootfd ∧ strleq buf (rootOf env) = false then rootOf env else buf
  if strleq buf (rootOf env) ∧ allowIgnore prflags ∧ ignore re (buf.drop (strlen (rootOf env))) then
    (striprootdir env buf).getD buf
  else buf

def secondWalk (errno : Option Errno) (buf : Str) : Ret Str :=
  if allowWalkAlong prflags then (walkFull h env fuel atflags errno buf).bind fun r => .done r.1 else .done buf

def finishFull (errno : Option Errno) (isAtrootfd : Bool) (buf : Str) : Ret Str :=
  (firstWalk h env fuel atflags errno buf).bind fun r =>
    secondWalk h env fuel atflags prflags r.2 (between env re prflags isAtrootfd r.1)

def Start.full (errno : Option Errno) : Start → Ret Str
  | .fail e => .fail e
  | .asIs s => .done s
  | .printed isAtrootfd s => finishFull h env re fuel atflags prflags errno isAtrootfd s
  | .copied s => finishFull h env re fuel atflags prflags errno false s

/-! ## With one -/

def inBuffer (bufsiz : Nat) : Ret Str → Ret Str
  | .done b => if b.length < bufsiz then .done b else .fail .ENAMETOOLONG
  | r => r

def Start.run (bufsiz : Nat) (errno : Option Errno) : Start → Ret Str
  | .fail e => .fail e
  | .asIs s => inBuffer bufsiz (.done s)
  | .printed isAtrootfd s =>
    if s.length < bufsiz then finishBuf h env re fuel bufsiz atflags prflags errno isAtrootfd s else .fail .ENAMETOOLONG
  | .copied s => finishBuf h env re fuel bufsiz atflags prflags errno false (strncpy s bufsiz)

/-- The call returns what it would with a buffer without a limit, or that this does not fit. -/
def NoTruncation (bufsiz : Nat) (errno : Option Errno) (dfd : Int) (path : Str) : Prop :=
  ∃ x, Settles (fun n => pathResolution2 h env re fuel n atflags prflags errno dfd path) x ∧
    pathResolution2 h env re fuel bufsiz atflags prflags errno dfd path = inBuffer bufsiz x

/-- `bind` and `connect` go on with the directory for sockets just when the resolved path does not fit. -/
def FallbackExact (errno : Option Errno) (path : Str) : Prop :=
  ∃ x, Settles (fun n => pathResolution h env re fuel n 0 errno atFdcwd path) x ∧
    ∀ afUnix, sunPath h env re fuel errno afUnix path =
      match inBuffer sunPathSiz x, afUnix with
      | .fail .ENAMETOOLONG, some dir =>
        if (dir ++ '/' :: basename path).length < sunPathSiz then .done (dir ++ '/' :: basename path) else .fail .ENOSPC
      | r, _ => r

def WalksFit (bufsiz : Nat) (errno : Option Errno) (isAtrootfd : Bool) (s : Str) : Prop :=
  (∀ r, firstWalk h env fuel atflags errno s = .done r → r.1.length < bufsiz) ∧
    ∀ b, finishFull h env re fuel atflags prflags errno isAtrootfd s = .done b → b.length < bufsiz

/-- No copy is cut: a relative path, and what the walks give, are shorter than the buffer; and where
the path with the directory before it does not fit, the resolved path does not either. -/
def Whole (bufsiz : Nat) (errno : Option Errno) : Start → Prop
  | .fail _ | .asIs _ => True
  | .printed isAtrootfd s =>
    if s.length < bufsiz then WalksFit h env re fuel atflags prflags bufsiz errno isAtrootfd s
    else ∃ b, finishFull h env re fuel atflags prflags errno isAtrootfd s = .done b ∧ bufsiz ≤ b.length
  | .copied s => s.length < bufsiz ∧ WalksFit h env re fuel atflags prflags bufsiz errno false s

def CutEarly (bufsiz : Nat) (errno : Option Errno) : Start → Prop
  | .fail _ | .asIs _ => False
  | .printed _ s => s.length < bufsiz ∧ ∃ r, firstWalk h env fuel atflags errno s = .done r ∧ bufsiz ≤ r.1.length
  | .copied s => bufsiz ≤ s.length ∨ ∃ r, firstWalk h env fuel atflags errno s = .done r ∧ bufsiz ≤ r.1.length

end

section
variable {h : Host} {env : Option Str} {re : Option (Str → Bool)} {fuel bufsiz : Nat} {atflags prflags : Word}
  {errno : Option Errno} {dfd : Int} {path buf : Str} {isAtrootfd : Bool}

theorem copyAsIs_eq (hb : 2 ≤ bufsiz) (hs : path.length < pathMax) : copyAsIs path bufsiz = inBuffer bufsiz (.done path) := by
  have hl : strlen path = path.length := strlen_of_lt hs
  unfold copyAsIs inBuffer strncpy strnlen
  simp only [hl, List.length_take]
  by_cases hlt : path.length < bufsiz
  · rw [if_pos hlt, if_neg (by omega), List.take_of_length_le (by omega)]
  · rw [if_neg hlt, if_pos (by omega)]

theorem printed_eq (isAtrootfd : Bool) (s : Str) :
    (match snprintf s bufsiz with
      | .error _ => .fail .ENAMETOOLONG
      | .ok buf => finishBuf h env re fuel bufsiz atflags prflags errno isAtrootfd buf) =
      if s.length < bufsiz then finishBuf h env re fuel bufsiz atflags prflags errno isAtrootfd s else .fail .ENAMETOOLONG := by
  unfold snprintf
  by_cases hs : s.length < bufsiz
  · simp only [hs, if_true]
  · simp only [hs, if_false]

theorem pathResolution2_start (hb : 2 ≤ bufsiz) : pathResolution2 h env re fuel bufsiz atflags prflags errno dfd path =
    (start h env re prflags dfd path).run h env re fuel atflags prflags bufsiz errno := by
  unfold pathResolution2 start Start.run
  by_cases hl : strnlen path pathMax = pathMax
  · simp only [hl, if_true]
  have hs : path.length < pathMax := by
    unfold strnlen at hl
    omega
  have hslash : (if strnlen (strncpy ['/'] bufsiz) bufsiz ≠ 1 then .fail .ENAMETOOLONG else .done (strncpy ['/'] bufsiz)) =
      inBuffer bufsiz (.done ['/']) := copyAsIs_eq hb (by decide)
  simp only [hl, if_false]
  by_cases hm : allowMagicLinks prflags = true ∧ streq path procRoot = true
  · simp only [hm, and_self, if_true, hslash]
  simp only [hm, if_false]
  by_cases hd : allowMagicLinks prflags = true ∧ strneq path devFd devFd.length = true
  · simp only [hd, and_self, if_true, copyAsIs_eq hb hs]
  simp only [hd, if_false]
  by_cases hi : allowIgnore prflags = true ∧ ignore re path = true
  · simp only [hi, and_self, if_true, copyAsIs_eq hb hs]
  simp only [hi, if_false]
  by_cases ha : isAbs path = true
  · simp only [ha, if_true]
    exact printed_eq _ _
  simp only [ha, if_false, Bool.false_eq_true]
  by_cases hdfd : dfd ≠ atFdcwd
  · rw [if_pos hdfd, if_pos hdfd]
    cases hf : h.fpath dfd with
    | error e => rfl
    | ok dirbuf =>
      by_cases hda : isAbs dirbuf = false
      · simp only [hda, if_true, copyAsIs_eq hb hs]
      · simp only [hda]
        exact printed_eq _ _
  · rw [if_neg hdfd, if_neg hdfd]

/-! ## The walks, cut and not -/

theorem walkBuf_fits {e : Option Errno} (hfit : ∀ r, walkFull h env fuel atflags e buf = .done r → r.1.length < bufsiz) :
    walkBuf h env fuel bufsiz atflags e buf = walkFull h env fuel atflags e buf := by
  unfold walkBuf
  unfold walkFull at hfit ⊢
  cases hr : realpathat h env e fuel buf atflags with
  | done tmp =>
    rw [hr] at hfit
    have := hfit (tmp, e) rfl
    simp only [strncpy, List.take_of_length_le (Nat.le_sub_one_of_lt this)]
  | fail e => rfl
  | fault => rfl
  | unfinished => rfl

/-- A walk through a buffer returns when the walk without a limit does. -/
theorem walkBuf_done (bufsiz : Nat) {e : Option Errno} {r : Str × Option Errno} (hr : walkFull h env fuel atflags e buf = .done r) :
    ∃ b, walkBuf h env fuel bufsiz atflags e buf = .done b := by
  unfold walkBuf
  unfold walkFull at hr
  cases hx : realpathat h env e fuel buf atflags with
  | done tmp => exact ⟨_, rfl⟩
  | fail e => exact ⟨_, rfl⟩
  | fault | unfinished =>
    rw [hx] at hr
    cases hr

def secondCut (h : Host) (env : Option Str) (fuel bufsiz : Nat) (atflags prflags : Word) (errno : Option Errno) (buf : Str) : Ret Str :=
  if allowWalkAlong prflags then (walkBuf h env fuel bufsiz atflags errno buf).bind fun r => .done r.1 else .done buf

theorem finishBuf_fits (hroot : isAtrootfd = true → (rootOf env).length < bufsiz)
    (hfit : ∀ r, firstWalk h env fuel atflags errno buf = .done r → r.1.length < bufsiz) :
    finishBuf h env re fuel bufsiz atflags prflags errno isAtrootfd buf =
      (firstWalk h env fuel atflags errno buf).bind fun r =>
        secondCut h env fuel bufsiz atflags prflags r.2 (between env re prflags isAtrootfd r.1) := by
  have hfirst : (if followSymlink atflags then walkBuf h env fuel bufsiz atflags errno (pathSanitize buf)
      else .done (pathSanitize buf, errno)) = firstWalk h env fuel atflags errno buf := by
    unfold firstWalk at hfit ⊢
    by_cases hf : followSymlink atflags = true
    · simp only [hf, if_true] at hfit ⊢
      exact walkBuf_fits hfit
    · simp only [hf, if_false, Bool.false_eq_true]
  have hclamp : ∀ b : Str, (if rootOf env ≠ [] ∧ isAtrootfd = true ∧ strleq b (rootOf env) = false then
      strncpy (rootOf env) bufsiz else b) =
      if rootOf env ≠ [] ∧ isAtrootfd = true ∧ strleq b (rootOf env) = false then rootOf env else b := by
    intro b
    split
    · rename_i hc
      rw [strncpy, List.take_of_length_le (Nat.le_sub_one_of_lt (hroot hc.2.1))]
    · rfl
  unfold finishBuf
  simp only [hfirst, hclamp]
  rfl

theorem secondCut_fits {e : Option Errno} (hfit : ∀ b, secondWalk h env fuel atflags prflags e buf = .done b → b.length < bufsiz) :
    secondCut h env fuel bufsiz atflags prflags e buf = secondWalk h env fuel atflags prflags e buf := by
  unfold secondCut
  unfold secondWalk at hfit ⊢
  split
  · rename_i hw
    rw [if_pos hw] at hfit
    rw [walkBuf_fits]
    intro r hr
    exact hfit r.1 (by rw [hr]; rfl)
  · rfl

theorem secondCut_done (bufsiz : Nat) {e : Option Errno} {b : Str} (hb : secondWalk h env fuel atflags prflags e buf = .done b) :
    ∃ b', secondCut h env fuel bufsiz atflags prflags e buf = .done b' := by
  unfold secondCut
  unfold secondWalk at hb
  split
  · rename_i hw
    rw [if_pos hw] at hb
    cases hr : walkFull h env fuel atflags e buf with
    | done r =>
      obtain ⟨b', hb'⟩ := walkBuf_done bufsiz hr
      exact ⟨b'.1, by rw [hb']; rfl⟩
    | fail | fault | unfinished =>
      rw [hr] at hb
      cases hb
  · exact ⟨_, rfl⟩

theorem finishBuf_whole (hroot : isAtrootfd = true → (rootOf env).length < bufsiz)
    (hw : WalksFit h env re fuel atflags prflags bufsiz errno isAtrootfd buf) :
    finishBuf h env re fuel bufsiz atflags prflags errno isAtrootfd buf =
      finishFull h env re fuel atflags prflags errno isAtrootfd buf := by
  rw [finishBuf_fits hroot hw.1, finishFull]
  cases hr : firstWalk h env fuel atflags errno buf with
  | done r =>
    refine secondCut_fits fun b hb => hw.2 b ?_
    rw [finishFull, hr]
    exact hb
  | fail | fault | unfinished => rfl

/-- When the first walk is whole, what is returned through the buffer is right only if the second is. -/
theorem finishBuf_exact (hroot : isAtrootfd = true → (rootOf env).length < bufsiz)
    (hfit : ∀ r, firstWalk h env fuel atflags errno buf = .done r → r.1.length < bufsiz)
    (heq : finishBuf h env re fuel bufsiz atflags prflags errno isAtrootfd buf =
      inBuffer bufsiz (finishFull h env re fuel atflags prflags errno isAtrootfd buf)) :
    WalksFit h env re fuel atflags prflags bufsiz errno isAtrootfd buf := by
  refine ⟨hfit, fun b hb => ?_⟩
  by_contra hlong
  rw [finishBuf_fits hroot hfit, hb, inBuffer, if_neg hlong] at heq
  unfold finishFull at hb
  cases hr : firstWalk h env fuel atflags errno buf with
  | done r =>
    rw [hr] at heq hb
    obtain ⟨b', hb'⟩ := secondCut_done bufsiz hb
    cases hb'.symm.trans heq
  | fail | fault | unfinished =>
    rw [hr] at hb
    cases hb

/-! ## The whole call -/

theorem start_root {s : Str} (hs : start h env re prflags dfd path = .printed isAtrootfd s) :
    isAtrootfd = true → (rootOf env).length < s.length := by
  intro hroot
  subst hroot
  unfold start at hs
  repeat' split at hs
  all_goals try cases hs
  next dirbuf _ _ =>
    obtain ⟨he, rfl⟩ := Start.printed.inj hs
    rw [(streq_iff _ _).mp he, List.length_append]
    simp

theorem exists_bound {α : Type} (len : α → Nat) (r : Ret α) : ∃ n, ∀ a, r = .done a → len a < n := by
  cases r with
  | done a =>
    refine ⟨len a + 1, ?_⟩
    rintro b ⟨⟩
    exact Nat.lt_succ_self _
  | fail | fault | unfinished => exact ⟨0, nofun⟩

/-- A buffer that is long enough is one without a limit. -/
theorem settles_full (h : Host) (env : Option Str) (re : Option (Str → Bool)) (fuel : Nat) (atflags prflags : Word)
    (errno : Option Errno) (dfd : Int) (path : Str) :
    Settles (fun n => pathResolution2 h env re fuel n atflags prflags errno dfd path)
      ((start h env re prflags dfd path).full h env re fuel atflags prflags errno) := by
  have hfinish : ∀ isAtrootfd s, ∃ n, ∀ k, finishBuf h env re fuel (n + k) atflags prflags errno isAtrootfd s =
      finishFull h env re fuel atflags prflags errno isAtrootfd s := by
    intro isAtrootfd s
    obtain ⟨n₁, h₁⟩ := exists_bound (fun r => r.1.length) (firstWalk h env fuel atflags errno s)
    obtain ⟨n₂, h₂⟩ := exists_bound List.length (finishFull h env re fuel atflags prflags errno isAtrootfd s)
    refine ⟨(rootOf env).length + 1 + n₁ + n₂, fun k => finishBuf_whole (fun _ => by omega) ⟨fun r hr => ?_, fun b hb => ?_⟩⟩
    · have := h₁ r hr
      omega
    · have := h₂ b hb
      omega
  cases hs : start h env re prflags dfd path with
  | fail e =>
    refine ⟨2, fun k => ?_⟩
    show pathResolution2 h env re fuel (2 + k) atflags prflags errno dfd path = _
    rw [pathResolution2_start (by omega), hs]
    rfl
  | asIs s =>
    refine ⟨s.length + 2, fun k => ?_⟩
    show pathResolution2 h env re fuel (s.length + 2 + k) atflags prflags errno dfd path = _
    rw [pathResolution2_start (by omega), hs]
    exact if_pos (by omega)
  | printed isAtrootfd s =>
    obtain ⟨n, hn⟩ := hfinish isAtrootfd s
    refine ⟨n + (s.length + 2), fun k => ?_⟩
    show pathResolution2 h env re fuel (n + (s.length + 2) + k) atflags prflags errno dfd path = _
    rw [pathResolution2_start (by omega), hs, Start.run, if_pos (by omega), Nat.add_assoc]
    exact hn _
  | copied s =>
    obtain ⟨n, hn⟩ := hfinish false s
    refine ⟨n + (s.length + 2), fun k => ?_⟩
    show pathResolution2 h env re fuel (n + (s.length + 2) + k) atflags prflags errno dfd path = _
    rw [pathResolution2_start (by omega), hs, Start.run, strncpy, List.take_of_length_le (by omega), Nat.add_assoc]
    exact hn _

theorem noTruncation_iff : NoTruncation h env re fuel atflags prflags bufsiz errno dfd path ↔
    pathResolution2 h env re fuel bufsiz atflags prflags errno dfd path =
      inBuffer bufsiz ((start h env re prflags dfd path).full h env re fuel atflags prflags errno) := by
  have hfull := settles_full h env re fuel atflags prflags errno dfd path
  constructor
  · rintro ⟨x, hx, he⟩
    rw [he, hx.unique hfull]
  · exact fun he => ⟨_, hfull, he⟩

theorem finishFull_ne_fail (e : Errno) : finishFull h env re fuel atflags prflags errno isAtrootfd buf ≠ .fail e := by
  have hwalk : ∀ x b, walkFull h env fuel atflags x b ≠ .fail e := by
    intro x b
    unfold walkFull
    split <;> nofun
  have hfirst : firstWalk h env fuel atflags errno buf ≠ .fail e := by
    unfold firstWalk
    split
    · exact hwalk _ _
    · nofun
  intro hf
  unfold finishFull at hf
  cases hr : firstWalk h env fuel atflags errno buf with
  | done r =>
    rw [hr] at hf
    simp only [Ret.bind, secondWalk] at hf
    split at hf
    · cases hw : walkFull h env fuel atflags r.2 (between env re prflags isAtrootfd r.1) with
      | fail e' =>
        rw [hw] at hf
        obtain rfl : e' = e := Ret.fail.inj hf
        exact hwalk _ _ hw
      | done | fault | unfinished =>
        rw [hw] at hf
        cases hf
    · cases hf
  | fail e' =>
    rw [hr] at hf
    obtain rfl : e' = e := Ret.fail.inj hf
    exact hfirst hr
  | fault | unfinished =>
    rw [hr] at hf
    cases hf

theorem inBuffer_of_fits {x : Ret Str} (hx : ∀ b, x = .done b → b.length < bufsiz) : inBuffer bufsiz x = x := by
  cases x with
  | done b => exact if_pos (hx b rfl)
  | fail | fault | unfinished => rfl

theorem noTruncation_of_whole (hb : 2 ≤ bufsiz)
    (hw : Whole h env re fuel atflags prflags bufsiz errno (start h env re prflags dfd path)) :
    NoTruncation h env re fuel atflags prflags bufsiz errno dfd path := by
  rw [noTruncation_iff, pathResolution2_start hb]
  cases hs : start h env re prflags dfd path with
  | fail | asIs => rfl
  | printed isAtrootfd s =>
    have hroot := start_root hs
    rw [hs, Whole] at hw
    rw [Start.run, Start.full]
    by_cases hl : s.length < bufsiz
    · rw [if_pos hl] at hw ⊢
      rw [finishBuf_whole (fun h => Nat.lt_trans (hroot h) hl) hw, inBuffer_of_fits hw.2]
    · rw [if_neg hl] at hw ⊢
      obtain ⟨b, hfull, hlong⟩ := hw
      rw [hfull, inBuffer, if_neg (Nat.not_lt.mpr hlong)]
  | copied s =>
    rw [hs, Whole] at hw
    rw [Start.run, Start.full, strncpy, List.take_of_length_le (Nat.le_sub_one_of_lt hw.1),
      finishBuf_whole Bool.noConfusion hw.2, inBuffer_of_fits hw.2.2]

theorem whole_of_noTruncation (hb : 2 ≤ bufsiz) (hn : NoTruncation h env re fuel atflags prflags bufsiz errno dfd path) :
    Whole h env re fuel atflags prflags bufsiz errno (start h env re prflags dfd path) ∨
      CutEarly h env fuel atflags bufsiz errno (start h env re prflags dfd path) := by
  rw [noTruncation_iff, pathResolution2_start hb] at hn
  have hcut : ∀ s, (∀ r, firstWalk h env fuel atflags errno s = .done r → r.1.length < bufsiz) ∨
      ∃ r, firstWalk h env fuel atflags errno s = .done r ∧ bufsiz ≤ r.1.length := by
    intro s
    by_cases hc : ∃ r, firstWalk h env fuel atflags errno s = .done r ∧ bufsiz ≤ r.1.length
    · exact Or.inr hc
    · exact Or.inl fun r hr => Nat.lt_of_not_le fun hle => hc ⟨r, hr, hle⟩
  cases hs : start h env re prflags dfd path with
  | fail | asIs => exact Or.inl trivial
  | printed isAtrootfd s =>
    have hroot := start_root hs
    rw [hs, Start.run, Start.full] at hn
    rw [Whole, CutEarly]
    by_cases hl : s.length < bufsiz
    · rw [if_pos hl] at hn ⊢
      rcases hcut s with hfit | hlong
      · exact Or.inl (finishBuf_exact (fun h => Nat.lt_trans (hroot h) hl) hfit hn)
      · exact Or.inr ⟨hl, hlong⟩
    · rw [if_neg hl] at hn ⊢
      left
      cases hx : finishFull h env re fuel atflags prflags errno isAtrootfd s with
      | done b =>
        rw [hx, inBuffer] at hn
        refine ⟨b, rfl, Nat.le_of_not_lt fun hlt => ?_⟩
        rw [if_pos hlt] at hn
        cases hn
      | fail e => exact absurd hx (finishFull_ne_fail e)
      | fault | unfinished =>
        rw [hx] at hn
        cases hn
  | copied s =>
    rw [hs, Start.run, Start.full] at hn
    rw [Whole, CutEarly]
    by_cases hl : s.length < bufsiz
    · rw [strncpy, List.take_of_length_le (Nat.le_sub_one_of_lt hl)] at hn
      rcases hcut s with hfit | hlong
      · exact Or.inl ⟨hl, finishBuf_exact Bool.noConfusion hfit hn⟩
      · exact Or.inr (Or.inr hlong)
    · exact Or.inr (Or.inl (Nat.le_of_not_lt hl))

/-- A call of `path_resolution2` returns what it would with a buffer without a limit, or that this does not
fit, when no copy is cut; and only then, unless a copy before the last one is cut. -/
theorem pathResolution2_whole (h : Host) (env : Option Str) (re : Option (Str → Bool)) (fuel : Nat) (atflags prflags : Word)
    (errno : Option Errno) (dfd : Int) (path : Str) (hb : 2 ≤ bufsiz) :
    (Whole h env re fuel atflags prflags bufsiz errno (start h env re prflags dfd path) →
      NoTruncation h env re fuel atflags prflags bufsiz errno dfd path) ∧
    (NoTruncation h env re fuel atflags prflags bufsiz errno dfd path →
      Whole h env re fuel atflags prflags bufsiz errno (start h env re prflags dfd path) ∨
        CutEarly h env fuel atflags bufsiz errno (start h env re prflags dfd path)) ∧
    (Whole h env re fuel 0 0 sunPathSiz errno (start h env re 0 atFdcwd path) → FallbackExact h env re fuel errno path) := by
  refine ⟨noTruncation_of_whole hb, whole_of_noTruncation hb, fun hw => ?_⟩
  obtain ⟨x, hx, he⟩ := noTruncation_of_whole (by decide) hw
  refine ⟨x, hx, fun afUnix => ?_⟩
  have hcall : pathResolution h env re fuel sunPathSiz 0 errno atFdcwd path = inBuffer sunPathSiz x := he
  unfold sunPath snprintf
  rw [hcall]
  split
  next dir _ =>
    by_cases hd : (dir ++ '/' :: basename path).length < sunPathSiz
    · simp only [hd, if_true]
    · simp only [hd, if_false]
  next => rfl

/-! ## What is returned is shorter than the buffer -/

theorem length_strncpy_lt (hb : 0 < bufsiz) (s : Str) : (strncpy s bufsiz).length < bufsiz := by
  rw [strncpy, List.length_take]
  omega

theorem length_cstr_lt {b : List Char} (hb : nul ∈ b) : (cstr b).length < b.length := by
  have hd : b.dropWhile (· ≠ nul) ≠ [] := by
    intro hn
    have := List.dropWhile_eq_nil_iff.mp hn nul hb
    simp at this
  have hlen := congrArg List.length (List.takeWhile_append_dropWhile (p := (· ≠ nul)) (l := b))
  rw [List.length_append] at hlen
  have := List.length_pos_of_ne_nil hd
  unfold cstr
  omega

theorem nul_mem_memmoveDown (path : Str) {src : Nat} (hle : src ≤ path.length) (n : Nat) :
    nul ∈ memmoveDown (path ++ [nul]) src n ∧ (memmoveDown (path ++ [nul]) src n).length ≤ path.length + 1 := by
  unfold memmoveDown
  constructor
  · by_cases hn : n ≤ path.length
    · refine List.mem_append_right _ ?_
      rw [List.drop_append_of_le_length hn]
      simp
    · refine List.mem_append_left _ ?_
      rw [List.drop_append_of_le_length hle, List.take_of_length_le (by simp; omega)]
      simp
  · simp only [List.length_append, List.length_take, List.length_drop, List.length_singleton]
    omega

theorem length_striprootdir_le {s : Str} (hr : striprootdir env path = some s) : s.length ≤ path.length := by
  unfold striprootdir at hr
  by_cases h0 : path = []
  · rw [if_pos h0] at hr
    cases hr
  rw [if_neg h0] at hr
  have hpos := List.length_pos_of_ne_nil h0
  by_cases h1 : streq (getrootdir env) ['/'] = true
  · rw [if_pos h1] at hr
    exact (Option.some.inj hr) ▸ Nat.le_refl _
  rw [if_neg h1] at hr
  obtain ⟨len, hlen⟩ : ∃ len, len = strlen (getrootdir env) := ⟨_, rfl⟩
  simp only [← hlen] at hr
  have hret : ∀ x : Str, x.length ≤ path.length → (if x = [] then strncpy ['/'] (strlen path) else x).length ≤ path.length := by
    intro x hx
    split
    · rw [strncpy, List.length_take, List.length_singleton]
      omega
    · exact hx
  rw [← Option.some.inj hr]
  apply hret
  split
  · rename_i hp
    have hle : len ≤ path.length := by
      have := congrArg List.length (beq_iff_eq.mp hp)
      rw [List.length_take, List.length_take] at this
      unfold strlen strnlen at hlen
      omega
    obtain ⟨hnul, hmoved⟩ := nul_mem_memmoveDown path hle (strlen path - len + 1)
    exact Nat.le_of_lt_succ (Nat.lt_of_lt_of_le (length_cstr_lt hnul) hmoved)
  · exact Nat.le_refl _

theorem walkBuf_length (hb : 0 < bufsiz) (hs : buf.length < bufsiz) {r : Str × Option Errno}
    (hr : walkBuf h env fuel bufsiz atflags errno buf = .done r) : r.1.length < bufsiz := by
  unfold walkBuf at hr
  split at hr
  · obtain rfl := Ret.done.inj hr
    exact length_strncpy_lt hb _
  · obtain rfl := Ret.done.inj hr
    exact hs
  · cases hr
  · cases hr

theorem finishBuf_length (hb : 0 < bufsiz) (hs : buf.length < bufsiz) {r : Str}
    (hr : finishBuf h env re fuel bufsiz atflags prflags errno isAtrootfd buf = .done r) : r.length < bufsiz := by
  unfold finishBuf at hr
  obtain ⟨⟨buf1, e⟩, h1, h2⟩ := Ret.of_bind hr
  have hsan : (pathSanitize buf).length < bufsiz := Nat.lt_of_le_of_lt (trims_sanitize buf).part.length_le hs
  have hlen1 : buf1.length < bufsiz := by
    split at h1
    · exact walkBuf_length hb hsan h1
    · obtain rfl := congrArg Prod.fst (Ret.done.inj h1)
      exact hsan
  obtain ⟨buf2, hbuf2⟩ : ∃ buf2, buf2 = if rootOf env ≠ [] ∧ isAtrootfd = true ∧ strleq buf1 (rootOf env) = false then
    strncpy (rootOf env) bufsiz else buf1 := ⟨_, rfl⟩
  have hlen2 : buf2.length < bufsiz := by
    rw [hbuf2]
    split
    · exact length_strncpy_lt hb _
    · exact hlen1
  simp only [← hbuf2] at h2
  obtain ⟨buf3, hbuf3⟩ : ∃ buf3, buf3 = if strleq buf2 (rootOf env) = true ∧ allowIgnore prflags = true ∧
    ignore re (buf2.drop (strlen (rootOf env))) = true then (striprootdir env buf2).getD buf2 else buf2 := ⟨_, rfl⟩
  have hlen3 : buf3.length < bufsiz := by
    rw [hbuf3]
    split
    · cases hx : striprootdir env buf2 with
      | none => exact hlen2
      | some x => exact Nat.lt_of_le_of_lt (length_striprootdir_le hx) hlen2
    · exact hlen2
  simp only [← hbuf3] at h2
  split at h2
  · obtain ⟨x, h3, h4⟩ := Ret.of_bind h2
    obtain rfl := Ret.done.inj h4
    exact walkBuf_length hb hlen3 h3
  · obtain rfl := Ret.done.inj h2
    exact hlen3

theorem copyAsIs_length (hb : 0 < bufsiz) {r : Str} (hr : copyAsIs path bufsiz = .done r) : r.length < bufsiz := by
  unfold copyAsIs at hr
  dsimp only at hr
  split at hr
  · cases hr
  · cases hr
    exact length_strncpy_lt hb _

theorem pathResolution2_length (hb : 0 < bufsiz) {r : Str}
    (hr : pathResolution2 h env re fuel bufsiz atflags prflags errno dfd path = .done r) : r.length < bufsiz := by
  have hprinted : ∀ {s buf : Str} {isAtrootfd : Bool}, snprintf s bufsiz = .ok buf →
      finishBuf h env re fuel bufsiz atflags prflags errno isAtrootfd buf = .done r → r.length < bufsiz := by
    intro s buf isAtrootfd hs hr
    unfold snprintf at hs
    split at hs
    · rename_i hlt
      cases hs
      exact finishBuf_length hb hlt hr
    · cases hs
  unfold pathResolution2 at hr
  dsimp only at hr
  split at hr
  · cases hr
  split at hr
  · split at hr
    · cases hr
    · cases hr
      exact length_strncpy_lt hb _
  split at hr
  · exact copyAsIs_length hb hr
  split at hr
  · exact copyAsIs_length hb hr
  split at hr
  · split at hr
    · cases hr
    · rename_i hs
      exact hprinted hs hr
  split at hr
  · split at hr
    · cases hr
    · split at hr
      · exact copyAsIs_length hb hr
      · split at hr
        · cases hr
        · rename_i hs
          exact hprinted hs hr
  · exact finishBuf_length hb (length_strncpy_lt hb path) hr

end

def noFiles : Host where
  readlink _ := .error .ENOENT
  getxattr _ := .error .ENOENT
  getcwd := .ok ['/']
  fpath _ := .error .EBADF

section
variable {h : Host} {env : Option Str} {fuel bufsiz : Nat} {errno : Option Errno} {path buf out out' : Str}
  (h1 : (walkText h env fuel (pathSanitize buf) 0).map (Reading.absolute h) = some (.done out))
include h1

theorem firstWalk_text : firstWalk h env fuel 0 errno buf = .done (out, errno) := by
  rw [firstWalk, show followSymlink 0 = true by decide, if_pos rfl, walkFull, realpathat_text h1]

theorem finishFull_text (h2 : (walkText h env fuel out 0).map (Reading.absolute h) = some (.done out')) :
    finishFull h env none fuel 0 0 errno false buf = .done out' := by
  have hbetween : between env none 0 false out = out := by
    simp [between, ignore]
  rw [finishFull, firstWalk_text h1, Ret.bind]
  dsimp only
  rw [hbetween, secondWalk, show allowWalkAlong 0 = true by decide, if_pos rfl, walkFull, realpathat_text h2]
  rfl

theorem finishBuf_text
    (h2 : (walkText h env fuel (strncpy out bufsiz) 0).map (Reading.absolute h) = some (.done out')) :
    finishBuf h env none fuel bufsiz 0 0 errno false buf = .done (strncpy out' bufsiz) := by
  rw [finishBuf, show followSymlink 0 = true by decide, if_pos rfl, walkBuf, realpathat_text h1, Ret.bind]
  simp only [Bool.false_eq_true, false_and, and_false, if_false, ignore, Option.any_none, decide_false]
  rw [show allowWalkAlong 0 = true by decide, if_pos rfl, walkBuf, realpathat_text h2]
  rfl

theorem sunPath_text {afUnix : Option Str} (hs : start h env none 0 atFdcwd path = .printed false buf)
    (hlen : buf.length < sunPathSiz)
    (h2 : (walkText h env fuel (strncpy out sunPathSiz) 0).map (Reading.absolute h) = some (.done out')) :
    sunPath h env none fuel errno afUnix path = .done (strncpy out' sunPathSiz) := by
  have hr : pathResolution h env none fuel sunPathSiz 0 errno atFdcwd path = .done (strncpy out' sunPathSiz) := by
    rw [pathResolution, pathResolution2_start (by decide), hs, Start.run, if_pos hlen, finishBuf_text h1 h2]
  unfold sunPath
  rw [hr]

end

/-- The path `x` through four bytes. -/
theorem pathResolution2_whole_short : NoTruncation noFiles none none 10 0 0 4 none atFdcwd ['x'] := by
  have h1 : (walkText noFiles none 10 (pathSanitize ['x']) 0).map (Reading.absolute noFiles) = some (.done ['/', 'x']) := by
    decide
  refine (pathResolution2_whole _ none none 10 0 0 none atFdcwd ['x'] (by decide)).1 ⟨by decide, fun r hr => ?_, fun b hb => ?_⟩
  · have hw : firstWalk noFiles none 10 0 none ['x'] = .done (['/', 'x'], none) := firstWalk_text h1
    obtain rfl := Ret.done.inj (hw.symm.trans hr)
    decide
  · have hw : finishFull noFiles none none 10 0 0 none false ['x'] = .done ['/', 'x'] :=
      finishFull_text h1 (by decide)
    obtain rfl := Ret.done.inj (hw.symm.trans hb)
    decide

def longName : Str := List.replicate 107 'a'

def deep : FileSystem := .ofList [([longName], .dir)] (by decide)

theorem deep_walks :
    (walkText (deep.host [longName] fun _ => none) none 10 (pathSanitize ['s']) 0).map
        (Reading.absolute (deep.host [longName] fun _ => none)) = some (.done (pathOf [['s'], longName])) ∧
      (walkText (deep.host [longName] fun _ => none) none 10 (pathOf [['s'], longName]) 0).map
        (Reading.absolute (deep.host [longName] fun _ => none)) = some (.done (pathOf [['s'], longName])) ∧
      (walkText (deep.host [longName] fun _ => none) none 10 (strncpy (pathOf [['s'], longName]) sunPathSiz) 0).map
        (Reading.absolute (deep.host [longName] fun _ => none)) = some (.done ('/' :: List.replicate 106 'a')) := by
  refine ⟨by decide, by decide +kernel, by decide⟩

/-- The socket `s` in that directory: the path does not fit, and what is returned names no file. -/
theorem pathResolution2_truncates :
    pathResolution (deep.host [longName] fun _ => none) none none 10 sunPathSiz 0 none atFdcwd ['s'] =
      .done ('/' :: List.replicate 106 'a') ∧
    ¬ NoTruncation (deep.host [longName] fun _ => none) none none 10 0 0 sunPathSiz none atFdcwd ['s'] := by
  obtain ⟨h1, hfull, hcut⟩ := deep_walks
  have hstart : start (deep.host [longName] fun _ => none) none none 0 atFdcwd ['s'] = .copied ['s'] := rfl
  have hshort : strncpy ['s'] sunPathSiz = ['s'] := rfl
  have hlong : strncpy ('/' :: List.replicate 106 'a') sunPathSiz = '/' :: List.replicate 106 'a' := by decide
  have hr : pathResolution (deep.host [longName] fun _ => none) none none 10 sunPathSiz 0 none atFdcwd ['s'] =
      .done ('/' :: List.replicate 106 'a') := by
    rw [pathResolution, pathResolution2_start (by decide), hstart, Start.run, hshort, finishBuf_text h1 hcut, hlong]
  refine ⟨hr, fun hn => ?_⟩
  have hx : (start (deep.host [longName] fun _ => none) none none 0 atFdcwd ['s']).full
      (deep.host [longName] fun _ => none) none none 10 0 0 none = .done (pathOf [['s'], longName]) := by
    rw [hstart, Start.full, finishFull_text h1 hfull]
  rw [noTruncation_iff, hx] at hn
  cases hr.symm.trans hn

end Iamroot
