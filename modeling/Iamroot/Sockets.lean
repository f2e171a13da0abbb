import Iamroot.Lib.ByteOrder
import Iamroot.Truncation

/-!
# Socket addresses

`bind` resolves the path of a Unix address and binds the socket to the host's path.
`getsockname` and `accept4` resolve the path that stands in the caller's buffer,
which is for the host to fill, and then let the host fill an address of their own
that is never copied back. `getpeername` tests for the opposite and always forwards.
-/

namespace Iamroot

open ByteOrder

/-- `AF_UNIX`, as it stands in memory. -/
def afUnix : Endian → List Char
  | .little => ['\x01', '\x00']
  | .big => ['\x00', '\x01']

/-- What stands in memory at an address, of which `addrlen` bytes are the caller's buffer. -/
abbrev Memory := List Char

/-- An address of the family `AF_UNIX`, with the NUL behind its path. -/
def unixAddr (host : Endian) (path : Str) : Memory := afUnix host ++ path ++ [nul]

structure Reported where
  ret : Except Errno Nat
  addr : Memory
  addrlen : Nat

/-- The call of the host: it gives a number and an address, of which it stores what `addrlen` has room for. -/
def nextCall (k : Except Errno (Nat × Memory)) (addr : Memory) (addrlen : Nat) : Reported :=
  match k with
  | .error e => ⟨.error e, addr, addrlen⟩
  | .ok (n, name) => ⟨.ok n, name.take addrlen ++ addr.drop (min name.length addrlen), name.length⟩

section
variable (host : Endian) (h : Host) (env : Option Str) (re : Option (Str → Bool)) (errno : Option Errno) (fuel : Nat)
  (dir : Option Str)

/-- `addrun->sun_family == AF_UNIX && *addrun->sun_path` -/
def isUnix (addr : Memory) : Bool := addr.take 2 == afUnix host && addr[2]?.any (· ≠ nul)

def addrunPath (addr : Memory) : Str := cstr (addr.drop 2)

def Sockets.bind (addr : Memory) : Ret Memory :=
  if isUnix host addr then (sunPath h env re fuel errno dir (addrunPath addr)).bind fun buf => .done (unixAddr host buf)
  else .done addr

/-- `getsockname` and `accept4`, with the host's call. -/
def reported (k : Except Errno (Nat × Memory)) (addr : Memory) (addrlen : Nat) : Ret Reported :=
  if isUnix host addr = false then .done (nextCall k addr addrlen)
  else
    match sunPath h env re fuel errno dir (addrunPath addr) with
    | .fail e => .done ⟨.error e, addr, addrlen⟩
    | .fault => .fault
    | .unfinished => .unfinished
    | .done buf =>
      let r := nextCall k (afUnix host ++ buf ++ List.replicate (sunPathSiz - buf.length) nul) (2 + buf.length)
      .done ⟨r.ret, addr, if r.ret = .ok 0 then r.addrlen else addrlen⟩

inductive AddrCall where
  | getsockname
  | accept4
  | getpeername
  deriving DecidableEq

/-- The test of `getpeername` is true of every address. -/
def AddrCall.run (k : Except Errno (Nat × Memory)) (addr : Memory) (addrlen : Nat) : AddrCall → Ret Reported
  | getsockname => reported host h env re errno fuel dir k addr addrlen
  | accept4 => reported host h env re errno fuel dir k addr addrlen
  | getpeername => .done (nextCall k addr addrlen)

end

/-! ## What the caller is told -/

/-- The address that a call has stored, as much of it as there was room for, with its length. -/
def Reported.stored (r : Reported) (addrlen : Nat) : Option (Memory × Nat) :=
  match r.ret with
  | .error _ => none
  | .ok _ => some (r.addr.take (min r.addrlen addrlen), r.addrlen)

def stored (r : Ret Reported) (addrlen : Nat) : Option (Memory × Nat) :=
  match r with
  | .done r => r.stored addrlen
  | _ => none

def answer (k : Except Errno (Nat × Memory)) (addrlen : Nat) : Option (Memory × Nat) :=
  match k with
  | .error _ => none
  | .ok (_, name) => some (name.take addrlen, name.length)

section
variable (host : Endian) (h : Host) (env : Option Str) (re : Option (Str → Bool)) (errno : Option Errno) (fuel : Nat)
  (dir : Option Str)

/-- What stands in the buffer is taken for a path that resolves, and the buffer is told to hold the address `name`, which it
does already. -/
def Lucky (n : Nat) (addr name : Memory) (addrlen : Nat) (told : Memory) : Prop :=
  (∃ buf, sunPath h env re fuel errno dir (addrunPath addr) = .done buf) ∧ (n = 0 ∨ addrlen = name.length) ∧
    addr.take (min name.length addrlen) = told.take addrlen

/-- The initial content of the buffer changes what a call tells. -/
def AddrCall.Swayed (k : Except Errno (Nat × Memory)) (addr : Memory) (addrlen : Nat) (c : AddrCall) : Prop :=
  c ≠ getpeername ∧ isUnix host addr = true ∧
    ∃ n name, k = .ok (n, name) ∧ ¬ Lucky h env re errno fuel dir n addr name addrlen name

end

section
variable {host : Endian} {h : Host} {env : Option Str} {re : Option (Str → Bool)} {errno : Option Errno} {fuel : Nat}
  {dir : Option Str} {k : Except Errno (Nat × Memory)} {addr name told : Memory} {addrlen n : Nat}

theorem stored_nextCall (k : Except Errno (Nat × Memory)) (addr : Memory) (addrlen : Nat) :
    (nextCall k addr addrlen).stored addrlen = answer k addrlen := by
  cases k with
  | error e => rfl
  | ok r =>
    obtain ⟨n, name⟩ := r
    show some ((name.take addrlen ++ addr.drop (min name.length addrlen)).take (min name.length addrlen), name.length) = _
    rw [List.take_left' (by rw [List.length_take]; exact Nat.min_comm _ _)]
    rfl

/-- Where there is no path in the buffer the host's answer is told. -/
theorem stored_plain (hu : isUnix host addr = false) :
    stored (reported host h env re errno fuel dir k addr addrlen) addrlen = answer k addrlen := by
  rw [reported, if_pos hu]
  exact stored_nextCall k addr addrlen

theorem stored_error (hu : isUnix host addr = true) (e : Errno) :
    stored (reported host h env re errno fuel dir (.error e) addr addrlen) addrlen = none := by
  rw [reported, if_neg (by simp [hu])]
  cases sunPath h env re fuel errno dir (addrunPath addr) with
  | done buf => rfl
  | fail e => rfl
  | fault => rfl
  | unfinished => rfl

/-- With a path in the buffer an address is told only when the buffer held it. -/
theorem stored_path_iff (hu : isUnix host addr = true) (n : Nat) (name told : Memory) (hlen : name.length = told.length) :
    stored (reported host h env re errno fuel dir (.ok (n, name)) addr addrlen) addrlen = some (told.take addrlen, told.length) ↔
      Lucky h env re errno fuel dir n addr name addrlen told := by
  rw [reported, if_neg (by simp [hu])]
  unfold Lucky
  cases sunPath h env re fuel errno dir (addrunPath addr) with
  | fail e => exact iff_of_false (by simp [stored, Reported.stored]) (by simp)
  | fault => exact iff_of_false (by simp [stored]) (by simp)
  | unfinished => exact iff_of_false (by simp [stored]) (by simp)
  | done buf =>
    have hstored : stored (.done ⟨.ok n, addr, if (.ok n : Except Errno Nat) = .ok 0 then name.length else addrlen⟩) addrlen =
        some (addr.take (min (if n = 0 then name.length else addrlen) addrlen), if n = 0 then name.length else addrlen) := by
      simp [stored, Reported.stored]
    show stored (.done ⟨.ok n, addr, if (.ok n : Except Errno Nat) = .ok 0 then name.length else addrlen⟩) addrlen = _ ↔ _
    rw [hstored, Option.some.injEq, Prod.mk.injEq]
    by_cases hn : n = 0
    · rw [if_pos hn]
      constructor
      · intro heq
        exact ⟨⟨buf, rfl⟩, .inl hn, heq.1⟩
      · intro heq
        exact ⟨heq.2.2, hlen⟩
    · rw [if_neg hn, Nat.min_self]
      constructor
      · rintro ⟨heq, haddrlen⟩
        rw [hlen, haddrlen, Nat.min_self]
        refine ⟨⟨buf, rfl⟩, .inr rfl, ?_⟩
        rwa [haddrlen] at heq
      · rintro ⟨-, hor, heq⟩
        have haddrlen := hor.resolve_left hn
        rw [← haddrlen, Nat.min_self] at heq
        exact ⟨heq, haddrlen.trans hlen⟩

/-- A call tells what it tells of a buffer without a path exactly when it is not swayed. -/
theorem AddrCall.unswayed_iff (c : AddrCall) :
    (∀ addr₀, isUnix host addr₀ = false →
      stored (c.run host h env re errno fuel dir k addr addrlen) addrlen =
        stored (c.run host h env re errno fuel dir k addr₀ addrlen) addrlen) ↔
      ¬ c.Swayed host h env re errno fuel dir k addr addrlen := by
  have hempty : isUnix host [] = false := by cases host <;> rfl
  by_cases hc : c = getpeername
  · subst hc
    refine iff_of_true (fun addr₀ _ => ?_) fun hs => hs.1 rfl
    exact (stored_nextCall k addr addrlen).trans (stored_nextCall k addr₀ addrlen).symm
  · have hrun : ∀ a, c.run host h env re errno fuel dir k a addrlen = reported host h env re errno fuel dir k a addrlen := by
      intro a
      cases c with
      | getsockname => rfl
      | accept4 => rfl
      | getpeername => exact absurd rfl hc
    have hplain : (∀ addr₀, isUnix host addr₀ = false →
        stored (c.run host h env re errno fuel dir k addr addrlen) addrlen =
          stored (c.run host h env re errno fuel dir k addr₀ addrlen) addrlen) ↔
        stored (reported host h env re errno fuel dir k addr addrlen) addrlen = answer k addrlen := by
      constructor
      · intro hall
        rw [← hrun, hall [] hempty, hrun, stored_plain hempty]
      · intro heq addr₀ h₀
        rw [hrun, hrun, heq, stored_plain h₀]
    rw [hplain]
    by_cases hu : isUnix host addr = true
    · cases k with
      | error e =>
        refine iff_of_true (stored_error hu e) ?_
        rintro ⟨-, -, n, name, hk, -⟩
        cases hk
      | ok r =>
        obtain ⟨n, name⟩ := r
        show _ = some (name.take addrlen, name.length) ↔ _
        rw [stored_path_iff hu n name name rfl]
        constructor
        · rintro hl ⟨-, -, n', name', hk, hnot⟩
          cases hk
          exact hnot hl
        · intro hs
          by_contra hl
          exact hs ⟨hc, hu, n, name, rfl, hl⟩
    · rw [Bool.not_eq_true] at hu
      refine iff_of_true (stored_plain hu) fun hs => ?_
      have hs := hs.2.1
      rw [hu] at hs
      cases hs

theorem stored_length {x : Memory} {m : Nat}
    (hs : stored (reported host h env re errno fuel dir (.ok (0, name)) addr addrlen) addrlen = some (x, m)) : m = name.length := by
  by_cases hu : isUnix host addr = true
  · rw [reported, if_neg (by simp [hu])] at hs
    cases hp : sunPath h env re fuel errno dir (addrunPath addr) with
    | done buf =>
      rw [hp] at hs
      exact (congrArg Prod.snd (Option.some.inj hs)).symm
    | fail e => rw [hp] at hs; cases hs
    | fault => rw [hp] at hs; cases hs
    | unfinished => rw [hp] at hs; cases hs
  · rw [Bool.not_eq_true] at hu
    rw [stored_plain hu] at hs
    exact (congrArg Prod.snd (Option.some.inj hs)).symm

/-- The socket is bound to `name`, and the caller is told `told`. -/
def TellsGuest (host : Endian) (h : Host) (env : Option Str) (re : Option (Str → Bool)) (errno : Option Errno) (fuel : Nat)
    (dir : Option Str) (addr name : Memory) (addrlen : Nat) (told : Memory) : Prop :=
  name.length = told.length ∧
    if isUnix host addr then Lucky h env re errno fuel dir 0 addr name addrlen told
    else name.take addrlen = told.take addrlen

theorem tellsGuest_iff (addr name told : Memory) (addrlen : Nat) :
    stored (reported host h env re errno fuel dir (.ok (0, name)) addr addrlen) addrlen = some (told.take addrlen, told.length) ↔
      TellsGuest host h env re errno fuel dir addr name addrlen told := by
  unfold TellsGuest
  constructor
  · intro hs
    have hlen := (stored_length hs).symm
    refine ⟨hlen, ?_⟩
    by_cases hu : isUnix host addr = true
    · rw [if_pos hu]
      exact (stored_path_iff hu 0 name told hlen).mp hs
    · rw [if_neg hu]
      rw [Bool.not_eq_true] at hu
      rw [stored_plain hu] at hs
      exact congrArg Prod.fst (Option.some.inj hs)
  · rintro ⟨hlen, hc⟩
    by_cases hu : isUnix host addr = true
    · rw [if_pos hu] at hc
      exact (stored_path_iff hu 0 name told hlen).mpr hc
    · rw [if_neg hu] at hc
      rw [Bool.not_eq_true] at hu
      rw [stored_plain hu, answer, hc, hlen]

end

/-- What a call tells is independent of the content of the buffer exactly when the call is not swayed by it; and of a socket
that was bound to the path `p`, `getsockname` tells `p` with its length exactly when the host's address is as long, and
agrees with that of `p`, or is told by a buffer that held the address of `p` already. -/
theorem sockaddr_reported (host : Endian) (h : Host) (env : Option Str) (re : Option (Str → Bool)) (errno : Option Errno)
    (fuel : Nat) (dir : Option Str) (addr : Memory) (addrlen : Nat) :
    (∀ (c : AddrCall) (k : Except Errno (Nat × Memory)),
      (∀ addr₀, isUnix host addr₀ = false →
        stored (c.run host h env re errno fuel dir k addr addrlen) addrlen =
          stored (c.run host h env re errno fuel dir k addr₀ addrlen) addrlen) ↔
        ¬ c.Swayed host h env re errno fuel dir k addr addrlen) ∧
    ∀ (p : Str) (name : Memory), isAbs p → Sockets.bind host h env re errno fuel dir (unixAddr host p) = .done name →
      (stored (AddrCall.getsockname.run host h env re errno fuel dir (.ok (0, name)) addr addrlen) addrlen =
        some ((unixAddr host p).take addrlen, (unixAddr host p).length) ↔
        TellsGuest host h env re errno fuel dir addr name addrlen (unixAddr host p)) :=
  ⟨fun c _ => c.unswayed_iff, fun p name _ _ => tellsGuest_iff addr name (unixAddr host p) addrlen⟩

/-- Two buffers that do not sway the call are told the same. -/
theorem AddrCall.told_same {host : Endian} {h : Host} {env : Option Str} {re : Option (Str → Bool)} {errno : Option Errno}
    {fuel : Nat} {dir : Option Str} {k : Except Errno (Nat × Memory)} {addr addr' : Memory} {addrlen : Nat} {c : AddrCall}
    (hs : ¬ c.Swayed host h env re errno fuel dir k addr addrlen) (hs' : ¬ c.Swayed host h env re errno fuel dir k addr' addrlen) :
    stored (c.run host h env re errno fuel dir k addr addrlen) addrlen =
      stored (c.run host h env re errno fuel dir k addr' addrlen) addrlen := by
  have hempty : isUnix host [] = false := by cases host <;> rfl
  rw [c.unswayed_iff.mpr hs [] hempty, c.unswayed_iff.mpr hs' [] hempty]

def plainHost : Host where
  readlink _ := .error .EINVAL
  getxattr _ := .error .ENODATA
  getcwd := .ok ['/']
  fpath _ := .error .ENOENT

/-- In the root `/r` a socket is bound to `/s`: a clear buffer is told `/r/s`, and one with the path `/x` keeps it. -/
theorem getsockname_swayed :
    Sockets.bind .little plainHost (some "/r".toList) none none 100 none (unixAddr .little "/s".toList) =
        .done (unixAddr .little "/r/s".toList) ∧
      stored (AddrCall.getsockname.run .little plainHost (some "/r".toList) none none 100 none
        (.ok (0, unixAddr .little "/r/s".toList)) (List.replicate 7 nul) 7) 7 = some (unixAddr .little "/r/s".toList, 7) ∧
      stored (AddrCall.getsockname.run .little plainHost (some "/r".toList) none none 100 none
        (.ok (0, unixAddr .little "/r/s".toList)) (unixAddr .little "/xyz".toList) 7) 7 =
          some (unixAddr .little "/xyz".toList, 7) := by
  have hbind : sunPath plainHost (some "/r".toList) none 100 none none "/s".toList = .done "/r/s".toList := by
    have h1 : (walkText plainHost (some "/r".toList) 100 (pathSanitize "/r/s".toList) 0).map (Reading.absolute plainHost) =
        some (.done "/r/s".toList) := by decide
    have h2 : (walkText plainHost (some "/r".toList) 100 (strncpy "/r/s".toList sunPathSiz) 0).map
        (Reading.absolute plainHost) = some (.done "/r/s".toList) := by decide
    have hs : start plainHost (some "/r".toList) none 0 atFdcwd "/s".toList = .printed false "/r/s".toList := by rfl
    exact sunPath_text h1 hs (by decide) h2
  have hkept : sunPath plainHost (some "/r".toList) none 100 none none "/xyz".toList = .done "/r/xyz".toList := by
    have h1 : (walkText plainHost (some "/r".toList) 100 (pathSanitize "/r/xyz".toList) 0).map (Reading.absolute plainHost) =
        some (.done "/r/xyz".toList) := by decide
    have h2 : (walkText plainHost (some "/r".toList) 100 (strncpy "/r/xyz".toList sunPathSiz) 0).map
        (Reading.absolute plainHost) = some (.done "/r/xyz".toList) := by decide
    have hs : start plainHost (some "/r".toList) none 0 atFdcwd "/xyz".toList = .printed false "/r/xyz".toList := by rfl
    exact sunPath_text h1 hs (by decide) h2
  refine ⟨?_, by decide, ?_⟩
  · rw [Sockets.bind, if_pos (by decide), show addrunPath (unixAddr .little "/s".toList) = "/s".toList by decide, hbind]
    rfl
  · rw [AddrCall.run, reported, if_neg (by decide),
      show addrunPath (unixAddr .little "/xyz".toList) = "/xyz".toList by decide, hkept]
    decide

end Iamroot
