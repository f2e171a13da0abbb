import Iamroot.Lib.Arena
import Iamroot.Exec
import Iamroot.PathList

/-!
# The strings of an exec

`execve` and `__ldso` lay the strings of the argument vector one behind the other
in the buffer `buf`, each producer with what is left of it. The buffer is a row of
bytes here, and an access outside of it, to a byte that was never written or with a
size that wraps around has no defined behaviour. A producer that starts at the very
end of the buffer has no room for the NUL it writes.
-/

namespace Iamroot

open Arena

abbrev CText := {s : Str // nul ∉ s}

/-- Paths that are added to a list one after the other, and how that ends. -/
structure Adds where
  paths : List CText
  ends : Except Errno Unit

structure ArenaLoader where
  ptInterp : Str
  /-- The library that `__getlibiamroot` decides on, with the room there is. -/
  lib : Nat → Except Errno CText
  /-- What `__ldso_preload_executable` adds to a list. -/
  preload : Str → Adds
  /-- What `__ld_library_path` adds, the root directory before each. -/
  libraryPath : Adds
  /-- `IAMROOT_INHIBIT_RPATH`, if the loader has the option. -/
  inhibitRpath : Option CText

structure ArenaWorld where
  /-- `sizeof(buf)`. -/
  bufsiz : Nat
  /-- `path_resolution`, with a room that is not empty. -/
  resolve : Str → Nat → Except Errno CText
  /-- With an empty room, `path_resolution` of the path fails before it writes: the path is printed, and does not fit. -/
  spares : Str → Option Errno
  execIgnored : Str → Bool
  canExec : Str → Except Errno Bool
  inchroot : Bool
  /-- The size and the content of a file. -/
  file : Str → Except Errno (Nat × Str)
  /-- The errno that stands when a script names no interpreter. -/
  errno : Errno
  isLdso : Str → Bool
  ldsoExecve : Except Errno Unit
  loader : Str → Except Errno ArenaLoader
  /-- The path of `exec.sh`. -/
  execSh : Except Errno CText
  resolve_fits : ∀ {path n r}, resolve path n = .ok r → r.1.length < n
  bshell_fits : pathBshell.length < bufsiz

abbrev Mem := Cells Char

/-- A string in the buffer that the vector points to: where, and what it was when it was laid there. -/
abbrev Placed := Nat × Str

namespace ArenaWorld

variable (w : ArenaWorld)

/-! ## What is done to the buffer -/

def write (off : Nat) (s : Str) : Making Errno Mem Unit := fun m =>
  if off + s.length ≤ w.bufsiz then .ok () (store m off s) else .fault

def fail {α : Type} (e : Errno) : Making Errno Mem α := Making.ofExcept (.error e)

def room (off : Nat) : Making Errno Mem Nat := if off ≤ w.bufsiz then pure (w.bufsiz - off) else Making.fault

/-- `_strncpy(&buf[off], s, n)`; with a size of 0 it fills the memory. -/
def strncpyTo (off n : Nat) (s : Str) : Making Errno Mem Unit :=
  if n = 0 then Making.fault else w.write off (strncpy s n ++ List.replicate (n - (strncpy s n).length) nul)

def snprintfTo (off n : Nat) (s : Str) : Making Errno Mem Nat :=
  if n = 0 then fail .ENOSPC
  else do
    w.write off (strncpy s n ++ [nul])
    if s.length < n then pure s.length else fail .ENOSPC

def strnlenOf (off n : Nat) : Making Errno Mem Nat := fun m =>
  match strnlenAt nul m n off with
  | some k => .ok k m
  | none => .fault

def textAt (off : Nat) : Making Errno Mem Str := fun m =>
  match read nul m (w.bufsiz - off) off with
  | some s => .ok s m
  | none => .fault

def pathStrncatTo (off n : Nat) (src : Str) : Making Errno Mem Unit := do
  let dst ← w.textAt off
  match pathStrncat dst src n with
  | .error e => fail e
  | .ok _ => do
    w.write (off + dst.length) ((if dst ≠ [] ∧ src ≠ [] then [':'] else []) ++ src ++ [nul])
    w.write (off + (n - 1)) [nul]

def addPaths (off n : Nat) : List CText → Making Errno Mem Unit
  | [] => pure ()
  | p :: ps => do
    w.pathStrncatTo off n p.1
    addPaths off n ps

def adds (off n : Nat) (a : Adds) : Making Errno Mem Unit := do
  w.addPaths off n a.paths
  Making.ofExcept a.ends

/-- `path_resolution(.., path, &buf[off], bufsiz-off, ..)`; what it leaves behind the string is not known. -/
def resolveTo (off : Nat) (path : Str) : Making Errno Mem Nat := do
  let n ← w.room off
  if n = 0 then (w.spares path).elim Making.fault fail
  else do
    let r ← Making.ofExcept (w.resolve path n)
    w.write off (r.1 ++ [nul])
    fun m => .ok r.1.length (clobber m (off + (r.1.length + 1)) (off + n))

def keep (ps : List Placed) (off siz : Nat) : Making Errno Mem (List Placed × Nat) :=
  if 0 < siz then do
    let t ← w.textAt off
    pure (ps ++ [(off, t)], off + (siz + 1))
  else pure (ps, off)

/-! ## `__ldso` -/

def ldPreload (l : ArenaLoader) (off : Nat) : Making Errno Mem Nat := do
  let n ← w.room off
  let lib ← Making.ofExcept (l.lib n)
  w.strncpyTo off n lib.1
  let _ ← strnlenOf 0 w.bufsiz
  let list ← w.textAt off
  w.adds off n (l.preload list)
  strnlenOf off n

def ldLibraryPath (l : ArenaLoader) (off : Nat) : Making Errno Mem Nat := do
  let n ← w.room off
  w.adds off n l.libraryPath
  strnlenOf off n

def inhibitRpath (value : Str) (off : Nat) : Making Errno Mem Nat := do
  let n ← w.room off
  w.strncpyTo off n value
  strnlenOf off n

def keeping (x : Nat → Making Errno Mem Nat) (ps : List Placed) (off : Nat) : Making Errno Mem (List Placed × Nat) := do
  let siz ← x off
  w.keep ps off siz

def place (ps : List Placed) (off : Nat) (path : Str) : Making Errno Mem (Str × List Placed × Nat) := do
  let siz ← w.resolveTo off path
  let t ← w.textAt off
  pure (t, ps ++ [(off, t)], off + (siz + 1))

def placeInterp (l : ArenaLoader) (ps : List Placed) (off : Nat) : Making Errno Mem (List Placed) := do
  let (_, ps, _) ← w.place ps off l.ptInterp
  pure ps

def placeInhibit (l : ArenaLoader) (ps : List Placed) (off : Nat) : Making Errno Mem (List Placed × Nat) :=
  match l.inhibitRpath with
  | none => pure (ps, off)
  | some value => w.keeping (w.inhibitRpath value.1) ps off

def ldso (l : ArenaLoader) (ps : List Placed) (off : Nat) : Making Errno Mem (List Placed) := do
  let (ps, off) ← w.keeping (w.ldPreload l) ps off
  let (ps, off) ← w.keeping (w.ldLibraryPath l) ps off
  let (ps, off) ← w.placeInhibit l ps off
  w.placeInterp l ps off

/-! ## `execve` -/

/-- What is read of a script is copied in place, and stays behind what is read. -/
def interpreterScriptHashbang (program : Str) (off : Nat) : Making Errno Mem Nat := do
  let f ← Making.ofExcept (w.file program)
  if f.1 = 0 then w.snprintfTo off w.bufsiz pathBshell
  else do
    let n ← w.room off
    if n = 0 then Making.fault
    else do
      let text := f.2.take (n - 1)
      w.write off (text ++ [nul])
      if text.length < 2 ∨ text.take 2 ≠ scriptMag then fail .ENOEXEC
      else do
        let r := hashbangWords (text.drop 2)
        w.write off (r.1 ++ [nul])
        r.2.elim (pure ()) fun a => w.write (off + (r.1.length + 1)) (a ++ [nul])
        pure (hashbangSize r)

def interpreterScript (ps : List Placed) (program : Str) (off : Nat) : Making Errno Mem (Str × List Placed × Nat) := do
  let siz ← w.interpreterScriptHashbang program off
  if siz < 1 then fail w.errno
  else do
    let hashbang ← w.textAt off
    let len ← strnlenOf off (w.bufsiz - off)
    let ps := ps ++ [(off, hashbang)]
    let off := off + (len + 1)
    if len < siz then do
      let arg ← w.textAt off
      if arg = [] then pure (hashbang, ps, off)
      else pure (hashbang, ps ++ [(off, arg)], off + (arg.length + 1))
    else pure (hashbang, ps, off)

def orNone {α : Type} (e : Errno) (x : Making Errno Mem α) : Making Errno Mem (Option α) := fun m =>
  match x m with
  | .ok a m => .ok (some a) m
  | .fail e' m => if e' = e then .ok none m else .fail e' m
  | .fault => .fault

def runExecSh : Making Errno Mem (List Placed) := do
  let exec ← Making.ofExcept w.execSh
  w.strncpyTo 0 w.bufsiz exec.1
  let t ← w.textAt 0
  pure [(0, t)]

def runLoader (path program : Str) (ps : List Placed) (off : Nat) : Making Errno Mem (List Placed) :=
  if w.isLdso (basename path) then do
    let _ ← orNone .EAGAIN (Making.ofExcept w.ldsoExecve)
    pure ps
  else do
    match ← orNone .ENOEXEC (do let l ← Making.ofExcept (w.loader program); w.ldso l ps off) with
    | none => w.runExecSh
    | some ps => pure ps

def runProgram (path program : Str) (ps : List Placed) (off : Nat) : Making Errno Mem (List Placed) := do
  match ← orNone .ENOEXEC (w.interpreterScript ps program off) with
  | none => w.runLoader path program ps off
  | some (hashbang, ps, off) => do
    let (program, ps, off) ← w.place ps off hashbang
    w.runLoader path program ps off

/-- The strings in the buffer that the vector points to, when the underlying exec is called. -/
def execve (path : Str) : Making Errno Mem (List Placed) :=
  if w.execIgnored path then w.runExecSh
  else do
    let (program, ps, off) ← w.place [] 0 path
    if !(← Making.ofExcept (w.canExec program)) then w.runExecSh
    else if !w.inchroot then pure []
    else w.runProgram path program ps off

/-! ## The texts, without the buffer -/

def addsText (dst : Str) (n : Nat) (a : Adds) : Except Errno Str := do
  let s ← a.paths.foldlM (fun s p => pathStrncat s p.1 n) dst
  a.ends
  pure s

def preloadText (l : ArenaLoader) (off : Nat) : Except Errno Str := do
  let lib ← l.lib (w.bufsiz - off)
  let s := strncpy lib.1 (w.bufsiz - off)
  addsText s (w.bufsiz - off) (l.preload s)

def hashbangText (program : Str) (off : Nat) : Except Errno (Str × Option Str) := do
  let f ← w.file program
  if f.1 = 0 then pure (pathBshell, none)
  else
    let text := f.2.take (w.bufsiz - off - 1)
    if text.length < 2 ∨ text.take 2 ≠ scriptMag then .error .ENOEXEC
    else pure (hashbangWords (text.drop 2))

def scriptText (program : Str) (off : Nat) : Except Errno (Str × Option Str) := do
  let r ← w.hashbangText program off
  if hashbangSize r < 1 then .error w.errno else pure (r.1, r.2.filter (· ≠ []))

def Blank (m : Mem) (i : Nat) : Prop := ∀ k, i ≤ k → k < w.bufsiz → m k = some nul

section
variable {w : ArenaWorld} {m : Mem} {off n : Nat} {s t src : Str} {ps : List Placed}

/-! ## One access -/

theorem write_ok (h : off + s.length ≤ w.bufsiz) : w.write off s m = .ok () (store m off s) := if_pos h

theorem room_ok (h : off ≤ w.bufsiz) : w.room off m = .ok (w.bufsiz - off) m := by
  rw [room, if_pos h]
  rfl

theorem textAt_stands (h : StandsAt nul m off s) (hs : off + s.length < w.bufsiz) : w.textAt off m = .ok s m := by
  rw [textAt, read_of_stands h (by omega)]

theorem strnlenOf_stands (h : StandsAt nul m off s) (hs : s.length < n) : strnlenOf off n m = .ok s.length m := by
  rw [strnlenOf, strnlenAt_of_stands h hs]

theorem nul_not_mem_strncpy (h : nul ∉ s) : nul ∉ strncpy s n := fun hm => h (List.mem_of_mem_take hm)

theorem length_strncpy_lt (h : 0 < n) : (strncpy s n).length < n := by
  rw [strncpy, List.length_take]
  omega

theorem strncpyTo_ok (hs : nul ∉ s) (h : off < w.bufsiz) : ∃ m', w.strncpyTo off (w.bufsiz - off) s m = .ok () m' ∧
    StandsAt nul m' off (strncpy s (w.bufsiz - off)) ∧ w.Blank m' (off + (strncpy s (w.bufsiz - off)).length) ∧ Frame m m' off := by
  have hn : 0 < w.bufsiz - off := by omega
  have hlen : (strncpy s (w.bufsiz - off)).length < w.bufsiz - off := length_strncpy_lt hn
  generalize hc : strncpy s (w.bufsiz - off) = c at hlen ⊢
  have hnul : nul ∉ c := hc ▸ nul_not_mem_strncpy hs
  obtain ⟨j, hj⟩ : ∃ j, w.bufsiz - off - c.length = j + 1 := ⟨w.bufsiz - off - c.length - 1, by omega⟩
  refine ⟨store m off (c ++ List.replicate (w.bufsiz - off - c.length) nul), ?_, ?_, ?_, frame_store (Nat.le_refl _)⟩
  · rw [strncpyTo, if_neg (by omega), hc]
    exact write_ok (by simp; omega)
  · rw [hj, List.replicate_succ]
    exact standsAt_store hnul
  · intro k hk hkb
    have hk' : off + (k - off) = k := by omega
    rw [← hk', store_at (by simp; omega), List.getElem?_append_right (by omega), List.getElem?_replicate, if_pos (by omega)]

theorem strncpyTo_full : w.strncpyTo off 0 s m = .fault := rfl

theorem pathStrncatTo_ok (hd : StandsAt nul m off t) (hb : w.Blank m (off + t.length)) (hlt : off + t.length < w.bufsiz)
    (hs : nul ∉ src) (hcat : pathStrncat t src (w.bufsiz - off) = .ok s) : ∃ m',
      w.pathStrncatTo off (w.bufsiz - off) src m = .ok () m' ∧ StandsAt nul m' off s ∧ w.Blank m' (off + s.length) ∧
        off + s.length < w.bufsiz ∧ Frame m m' off := by
  obtain ⟨hroom, rfl⟩ := pathStrncat_iff.mp hcat
  have hjoin : joined t src = t ++ ((if t ≠ [] ∧ src ≠ [] then [':'] else []) ++ src) := List.append_assoc _ _ _
  generalize hg : (if t ≠ [] ∧ src ≠ [] then [':'] else []) ++ src = g at hjoin
  have hlen : g.length ≤ src.length + (if t = [] then 0 else 1) := by
    rw [← hg, List.length_append]
    by_cases ht : t = []
    · simp [ht]
    · by_cases hs : src = []
      · simp [hs]
      · simp [ht, hs]
        omega
  have hnul : nul ∉ g := by
    rw [← hg, List.mem_append, not_or]
    refine ⟨?_, hs⟩
    split
    · decide
    · simp
  have hj : (joined t src).length = t.length + g.length := by rw [hjoin, List.length_append]
  have hlt' : off + (joined t src).length < w.bufsiz := by omega
  have h1 : StandsAt nul (store m (off + t.length) (g ++ [nul])) off (joined t src) := by
    rw [hjoin]
    exact hd.append hnul
  have hb1 : w.Blank (store m (off + t.length) (g ++ [nul])) (off + (joined t src).length) := by
    intro k hk hkb
    by_cases he : k = off + (joined t src).length
    · rw [he]
      exact h1.ends
    · rw [store_above (by rw [List.length_append, List.length_singleton]; omega)]
      exact hb k (by omega) hkb
  have hlast : store (store m (off + t.length) (g ++ [nul])) (off + (w.bufsiz - off - 1)) [nul] =
      store m (off + t.length) (g ++ [nul]) := by
    funext k
    by_cases hk : k = off + (w.bufsiz - off - 1)
    · subst hk
      have h0 : store (store m (off + t.length) (g ++ [nul])) (off + (w.bufsiz - off - 1)) [nul] (off + (w.bufsiz - off - 1) + 0) =
          [nul][0]? := store_at (by simp)
      rw [Nat.add_zero] at h0
      rw [h0, hb1 _ (by omega) (by omega)]
      rfl
    · rcases Nat.lt_or_gt_of_ne hk with h | h
      · exact store_below h
      · exact store_above (by simp; omega)
  refine ⟨_, ?_, h1, hb1, hlt', frame_store (by omega)⟩
  rw [pathStrncatTo, Making.bind_ok (textAt_stands hd hlt), hcat]
  dsimp only
  rw [hg, Making.bind_ok (write_ok (by rw [List.length_append, List.length_singleton]; omega)),
    write_ok (by simp; omega), hlast]

theorem pathStrncatTo_fail (hd : StandsAt nul m off t) (hlt : off + t.length < w.bufsiz) {e : Errno}
    (hcat : pathStrncat t src (w.bufsiz - off) = .error e) :
    w.pathStrncatTo off (w.bufsiz - off) src m = .fail e m := by
  rw [pathStrncatTo, Making.bind_ok (textAt_stands hd hlt), hcat]
  rfl

end

end ArenaWorld

end Iamroot
