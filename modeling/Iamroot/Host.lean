import Iamroot.Lib.Tree
import Iamroot.Path

/-!
# The host

The library asks the host for the target of a link, for the attribute
`user.iamroot.path-resolution`, for the working directory and for the path of a
descriptor, always by a string: that is `Host`. A file system with a working
directory and descriptors answers these questions as the kernel does, by a
walk from its own root.
-/

namespace Iamroot

open FileTree

structure Host where
  readlink : Str → Except Errno Str
  getxattr : Str → Except Errno Str
  getcwd : Except Errno Str
  fpath : Int → Except Errno Str

inductive Entry where
  | dir
  | file
  | link (target : Str)
  deriving DecidableEq

structure FileSystem where
  entry : Loc → Option Entry
  attr : Loc → Option Str
  root_dir : entry [] = some .dir
  parent_dir : ∀ {c ℓ}, entry (c :: ℓ) ≠ none → entry ℓ = some .dir
  valid : ∀ {ℓ}, entry ℓ ≠ none → ValidLoc ℓ
  target_ok : ∀ {ℓ t}, entry ℓ = some (.link t) → t ≠ [] ∧ nul ∉ t

/-! ## Paths as components -/

def compOf (c : Str) : Comp Str :=
  if c = [] then .empty else if c = dot then .dot else if c = dotdot then .up else .name c

def parse (s : Str) : List (Comp Str) := (comps s).map compOf

def compText : Comp Str → Str
  | .empty => []
  | .dot => dot
  | .up => dotdot
  | .name c => c

def unparse (cs : List (Comp Str)) : Str := join (cs.map compText)

def isAbs (s : Str) : Bool := s.head? == some '/'

def Entry.node : Entry → Node Str
  | .dir => .dir
  | .file => .file
  | .link t => .link (isAbs t) (parse t)

def maxSymlinks : Nat := 40

def hostRules (follow : Bool) : Rules Str := { top := [], stop := [], follow := follow, keep := false }

/-- The kernel's walk in a process whose root directory is `R`. -/
def chrootRules (R : Loc) (follow : Bool) : Rules Str := { top := R, stop := R, follow := follow, keep := false }

def Err.errno : Err → Errno
  | .notDir => .ENOTDIR
  | .noEnt => .ENOENT
  | .loop => .ELOOP

def walked : Except Err (Loc × Nat) → Except Errno Loc
  | .ok (ℓ, _) => .ok ℓ
  | .error e => .error (Err.errno e)

namespace FileSystem

variable (fs : FileSystem)

def tree : DirTree Str where
  node ℓ := (fs.entry ℓ).map Entry.node
  root_dir := by rw [fs.root_dir]; rfl
  parent_dir h := by
    rw [fs.parent_dir fun e => h (by rw [e]; rfl)]
    rfl

def lookup (cwd : Loc) (follow : Bool) (path : Str) : Except Errno Loc :=
  if path = [] then .error .ENOENT
  else if pathMax ≤ path.length then .error .ENAMETOOLONG
  else walked (fs.tree.walk (hostRules follow) maxSymlinks (if isAbs path then [] else cwd) (parse path))

def readlink (cwd : Loc) (path : Str) : Except Errno Str := do
  match fs.entry (← fs.lookup cwd false path) with
  | some (.link t) => .ok t
  | some _ => .error .EINVAL
  | none => .error .ENOENT

def getxattr (cwd : Loc) (path : Str) : Except Errno Str := do
  let ℓ ← fs.lookup cwd true path
  if (fs.entry ℓ).isNone then .error .ENOENT
  else
    match fs.attr ℓ with
    | some v => .ok v
    | none => .error .ENODATA

/-- The host of a process that works in `cwd` and has the descriptors `fds`. -/
def host (cwd : Loc) (fds : Int → Option Loc) : Host where
  readlink := fs.readlink cwd
  getxattr := fs.getxattr cwd
  getcwd := if (pathOf cwd).length < pathMax then .ok (pathOf cwd) else .error .ENAMETOOLONG
  fpath fd :=
    if fd = atFdcwd then .ok dot
    else if fd < 0 then .error .EINVAL
    else
      match fds fd with
      | some ℓ => if (pathOf ℓ).length < pathMax then .ok (pathOf ℓ) else .error .ENAMETOOLONG
      | none => .error .ENOENT

/-! ## File systems given by their entries -/

def entryOf (l : List (Loc × Entry)) : Loc → Option Entry
  | [] => some .dir
  | ℓ => l.lookup ℓ

def Fitting (l : List (Loc × Entry)) (p : Loc × Entry) : Prop :=
  ValidLoc p.1 ∧ entryOf l p.1.tail = some .dir ∧
    match p.2 with
    | .link t => t ≠ [] ∧ nul ∉ t
    | _ => True

instance (l : List (Loc × Entry)) (p : Loc × Entry) : Decidable (Fitting l p) := by
  unfold Fitting
  obtain ⟨ℓ, e⟩ := p
  cases e <;> infer_instance

theorem mem_of_entryOf {l : List (Loc × Entry)} {ℓ : Loc} {e : Entry} (h : entryOf l ℓ = some e) (hℓ : ℓ ≠ []) : (ℓ, e) ∈ l := by
  have hl : l.lookup ℓ = some e := by
    rw [← h, entryOf]
    exact hℓ
  obtain ⟨l₁, l₂, rfl, -⟩ := List.lookup_eq_some_iff.mp hl
  simp

def ofList (l : List (Loc × Entry)) (h : ∀ p ∈ l, Fitting l p) : FileSystem where
  entry := entryOf l
  attr _ := none
  root_dir := rfl
  parent_dir {c ℓ} hne := by
    obtain ⟨e, he⟩ := Option.ne_none_iff_exists'.mp hne
    exact (h _ (mem_of_entryOf he (by simp))).2.1
  valid {ℓ} hne := by
    obtain ⟨e, he⟩ := Option.ne_none_iff_exists'.mp hne
    by_cases hℓ : ℓ = []
    · rw [hℓ]; nofun
    · exact (h _ (mem_of_entryOf he hℓ)).1
  target_ok {ℓ t} he := by
    refine (h _ (mem_of_entryOf he ?_)).2.2
    rintro rfl
    cases he

end FileSystem

/-! ## Components, read and written -/

theorem compText_compOf (c : Str) : compText (compOf c) = c := by
  unfold compOf
  split
  · rename_i h; rw [h]; rfl
  · split
    · rename_i h; rw [h]; rfl
    · split
      · rename_i h; rw [h]; rfl
      · rfl

theorem compOf_name {c : Str} (h : ValidName c) : compOf c = .name c := by
  rw [compOf, if_neg h.1, if_neg h.2.2.2.1, if_neg h.2.2.2.2]

theorem compOf_eq_name {c n : Str} (h : compOf c = .name n) : n = c := by
  have := compText_compOf c
  rw [h] at this
  exact this

theorem unparse_parse (s : Str) : unparse (parse s) = s := by
  unfold unparse parse
  rw [List.map_map]
  have h : compText ∘ compOf = id := funext compText_compOf
  rw [h, List.map_id, join_comps]

theorem parse_ne_nil (s : Str) : parse s ≠ [] := fun h => comps_ne_nil s (List.map_eq_nil_iff.mp h)

@[simp] theorem parse_slash (s : Str) : parse ('/' :: s) = .empty :: parse s := by
  rw [parse, comps_slash]; rfl

theorem parse_append (s t : Str) : parse (s ++ '/' :: t) = parse s ++ parse t := by
  rw [parse, comps_append, List.map_append]; rfl

theorem parse_of_no_slash {c : Str} (h : '/' ∉ c) : parse c = [compOf c] := by
  rw [parse, comps_of_no_slash h]; rfl

end Iamroot
