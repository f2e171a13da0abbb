import Iamroot.ElfStrings
import Iamroot.PathList

/-!
# The lists of the dynamic strings

`__felf_needed`, `__felf_rpath` and `__felf_runpath` join the strings of one tag
in a buffer. A string that does not fit makes the callback fail, but the loop
over the segments goes on and returns 0, and a piece of the file that cannot be
read makes it return what the last callback has returned. What the reader meets
is laid out as segments of pieces first, and the loops become a run over them.
-/

namespace Iamroot

open ByteOrder

/-! ## The readers -/

def toStr (b : Bytes) : Str := b.map fun x => Char.ofNat x.toNat

/-- `__path_callback`, which leaves no list when no NUL ends the string in its buffer. -/
def listCallback (c : Class) (list : Option Str) : Arg c → Option Str × Int
  | .int _ => (none, 0)
  | .str b =>
    match list, (strOf b).map toStr with
    | some p, some path =>
      match pathStrncat p path pathMax with
      | .ok p => (some p, 0)
      | .error _ => (some p, -1)
    | _, _ => (none, 0)

/-- A list in a buffer of `PATH_MAX` bytes, -1, or no defined behaviour. -/
inductive ListRead where
  | done (list : Str)
  | fail
  | fault
  deriving DecidableEq

def ListRead.of (err : Int) : Option Str → ListRead
  | none => .fault
  | some list => if err = -1 then .fail else .done list

def felfList (host : Endian) (f : Bytes) (dtag : BitVec 32) : ListRead :=
  let r := elfIterateSharedObject host f dtag listCallback (some [])
  .of r.2 r.1

def felfNeeded (host : Endian) (f : Bytes) : ListRead := felfList host f dtNeeded

def felfRpath (host : Endian) (f : Bytes) : ListRead := felfList host f dtRpath

def felfRunpath (host : Endian) (f : Bytes) : ListRead := felfList host f dtRunpath

def logging {c : Class} {σ : Type} (callback : σ → Arg c → σ × Int) (s : σ × List Int) (a : Arg c) : (σ × List Int) × Int :=
  (((callback s.1 a).1, s.2 ++ [(callback s.1 a).2]), (callback s.1 a).2)

def callbackCodes (host : Endian) (f : Bytes) (dtag : BitVec 32) : List Int :=
  (elfIterateSharedObject host f dtag (fun c => logging (listCallback c)) (some [], [])).1.2

/-! ## Segments of pieces -/

/-- What the reader meets where it looks for a string: a buffer, less than it asked for, or an error. -/
inductive Piece where
  | str (b : Bytes)
  | short
  | bad

section
variable (host : Endian) {c : Class} (f : Bytes) (ehdr : Ehdr c) (dtag : BitVec 32) (strtab : Nat × Nat)

def pieceOf (d : Dyn c) : Piece :=
  let r := strRange strtab d
  match pread f r.2 r.1 with
  | none => .bad
  | some b => if b.length < r.2 then .short else .str b

def piecesOf (dyn : List (Dyn c)) : List Piece :=
  (dyn.filter fun d => d.tag.setWidth 32 = dtag).map (pieceOf f strtab)

def segments : Nat → Nat → List (List Piece)
  | 0, _ => []
  | num + 1, off =>
    match elfPhdr host ehdr.ident f off c with
    | .error _ => [[.bad]]
    | .ok phdr =>
      if phdr.type ≠ ptDynamic then segments num (off + c.phdrSize)
      else if c.dynCap < phdr.filesz.toNat then [[.short]]
      else
        match elfDyn host ehdr.ident f phdr.filesz.toNat phdr.offset.toNat c with
        | .error _ => [[.bad]]
        | .ok dyn => piecesOf f dtag strtab dyn :: segments num (off + c.phdrSize)

/-- `none` when there are no two string tables to look into, or the headers cannot be read. -/
def ehdrSegments : Option (List (List Piece)) :=
  match findStrtab host f ehdr ehdr.shnum.toNat ehdr.shoff.toNat with
  | .error _ => none
  | .ok strtab => if strtab.2 = 0 then none else some (segments host f ehdr dtag strtab ehdr.phnum.toNat ehdr.phoff.toNat)

end

def fileSegments (host : Endian) (f : Bytes) (dtag : BitVec 32) : Option (List (List Piece)) :=
  match elfEhdr host f with
  | .error _ => none
  | .ok (.elf32 e) => if e.type ≠ 2 ∧ e.type ≠ 3 then none else ehdrSegments host f e dtag
  | .ok (.elf64 e) => if e.type ≠ 2 ∧ e.type ≠ 3 then none else ehdrSegments host f e dtag

/-! ## The run over the pieces -/

section
variable {σ : Type} (call : σ → Bytes → σ × Int)

def runPieces : List Piece → σ → Int → σ × Int × Bool
  | [], s, ret => (s, ret, false)
  | .bad :: _, s, ret => (s, ret, true)
  | .short :: _, s, _ => (s, -1, true)
  | .str b :: ps, s, _ => if (call s b).2 ≠ 0 then ((call s b).1, (call s b).2, false) else runPieces ps (call s b).1 (call s b).2

def runSegments : List (List Piece) → σ → Int → σ × Int
  | [], s, _ => (s, 0)
  | ps :: segs, s, ret =>
    let r := runPieces call ps s ret
    if r.2.2 then (r.1, r.2.1) else runSegments segs r.1 r.2.1

end

section
variable {host : Endian} {c : Class} {f : Bytes} {ehdr : Ehdr c} {dtag : BitVec 32} {strtab : Nat × Nat}
  {σ : Type} {callback : σ → Arg c → σ × Int}

theorem dynLoop_pieces (ht : isString dtag = true) (dyn : List (Dyn c)) (s : σ) (ret : Int) :
    dynLoop f dtag callback strtab dyn s ret = runPieces (fun s b => callback s (.str b)) (piecesOf f dtag strtab dyn) s ret := by
  induction dyn generalizing s ret with
  | nil => rfl
  | cons d dyn ih =>
    by_cases htag : d.tag.setWidth 32 = dtag
    · rw [dynLoop, if_neg (not_not_intro htag), piecesOf, List.filter_cons_of_pos (by simpa using htag), List.map_cons]
      simp only [ht, Bool.not_true, Bool.false_eq_true, if_false, pieceOf]
      cases pread f (strRange strtab d).2 (strRange strtab d).1 with
      | none => rfl
      | some b =>
        by_cases hb : b.length < (strRange strtab d).2
        · simp only [hb, if_true]
          rfl
        · simp only [hb, if_false, runPieces]
          by_cases hc : (callback s (.str b)).2 = 0
          · rw [if_neg (not_not_intro hc), if_neg (not_not_intro hc)]
            exact ih _ _
          · rw [if_pos hc, if_pos hc]
    · rw [dynLoop, if_pos htag, piecesOf, List.filter_cons_of_neg (by simpa using htag)]
      exact ih s ret

theorem phdrLoop_segments (ht : isString dtag = true) (num off : Nat) (s : σ) (ret : Int) :
    phdrLoop host f ehdr dtag callback strtab num off s ret =
      runSegments (fun s b => callback s (.str b)) (segments host f ehdr dtag strtab num off) s ret := by
  induction num generalizing off s ret with
  | zero => rfl
  | succ num ih =>
    rw [phdrLoop, segments]
    cases elfPhdr host ehdr.ident f off c with
    | error e => rfl
    | ok phdr =>
      by_cases hty : phdr.type = ptDynamic
      · by_cases hcap : c.dynCap < phdr.filesz.toNat
        · simp only [hty, hcap, ne_eq, not_true_eq_false, if_false, if_true]
          rfl
        · simp only [hty, hcap, ne_eq, not_true_eq_false, if_false]
          cases elfDyn host ehdr.ident f phdr.filesz.toNat phdr.offset.toNat c with
          | error e => rfl
          | ok dyn =>
            dsimp only
            rw [runSegments, ← dynLoop_pieces ht]
            obtain ⟨s', ret', left⟩ := dynLoop f dtag callback strtab dyn s ret
            cases left with
            | true => rfl
            | false => exact ih _ s' ret'
      · simp only [hty, ne_eq, not_false_eq_true, if_true]
        exact ih _ s ret

theorem elfIterateEhdr_segments (ht : isString dtag = true) (s : σ) :
    elfIterateEhdr host f ehdr dtag callback s =
      (ehdrSegments host f ehdr dtag).elim (s, -1) fun segs => runSegments (fun s b => callback s (.str b)) segs s (-1) := by
  rw [elfIterateEhdr, ehdrSegments]
  cases findStrtab host f ehdr ehdr.shnum.toNat ehdr.shoff.toNat with
  | error e => rfl
  | ok strtab =>
    by_cases h0 : strtab.2 = 0
    · simp [h0]
    · simp only [h0, if_false]
      exact phdrLoop_segments ht _ _ _ _

end

theorem sharedObject_segments {host : Endian} {f : Bytes} {dtag : BitVec 32} (ht : isString dtag = true) {σ : Type}
    {callback : (c : Class) → σ → Arg c → σ × Int} {call : σ → Bytes → σ × Int}
    (hc : ∀ c s b, callback c s (.str b) = call s b) (s : σ) :
    elfIterateSharedObject host f dtag callback s =
      (fileSegments host f dtag).elim (s, -1) fun segs => runSegments call segs s (-1) := by
  have hcall : ∀ c, (fun s b => callback c s (.str b)) = call := fun c => funext fun s => funext fun b => hc c s b
  rw [elfIterateSharedObject, fileSegments]
  cases elfEhdr host f with
  | error e => rfl
  | ok e =>
    cases e with
    | elf32 e =>
      by_cases hty : e.type ≠ 2 ∧ e.type ≠ 3
      · simp only [hty, ne_eq, not_false_eq_true, and_self, if_true, Option.elim_none]
      · simp only [if_neg hty]
        rw [elfIterateEhdr_segments ht, hcall]
    | elf64 e =>
      by_cases hty : e.type ≠ 2 ∧ e.type ≠ 3
      · simp only [hty, ne_eq, not_false_eq_true, and_self, if_true, Option.elim_none]
      · simp only [if_neg hty]
        rw [elfIterateEhdr_segments ht, hcall]

/-! ## What is asked of a reader -/

def Piece.string : Piece → Option Str
  | .str b => (strOf b).map toStr
  | _ => none

def allStrings (host : Endian) (f : Bytes) (dtag : BitVec 32) : Option (List Str) :=
  (fileSegments host f dtag).bind fun segs => segs.flatten.mapM Piece.string

/-- A list that is returned is the list of all the strings, and a callback that fails is the last, and makes
the reader fail. -/
structure NoneLost (host : Endian) (f : Bytes) (dtag : BitVec 32) : Prop where
  defined : felfList host f dtag ≠ .fault
  whole : ∀ list, felfList host f dtag = .done list → ∃ strs, allStrings host f dtag = some strs ∧ list = [':'].intercalate strs
  failed : ∀ pre post, callbackCodes host f dtag = pre ++ -1 :: post → post = [] ∧ felfList host f dtag = .fail

/-! ## When nothing is lost -/

def Fits1 (list s : Str) : Prop := s.length + (if list = [] then 0 else 1) ≤ pathMax - list.length - 1

inductive Last where
  | none
  | kept
  | failed

/-- The reading ends in -1: at a piece that is too short, or at one that cannot be read when the string before
it, if there was one, was not kept; and no string comes after one that was not kept. -/
inductive Refuses : Last → Str → List (List Piece) → Prop
  | bad {last list ps segs} : last ≠ .kept → Refuses last list ((.bad :: ps) :: segs)
  | short {last list ps segs} : Refuses last list ((.short :: ps) :: segs)
  | next {last list segs} : Refuses last list segs → Refuses last list ([] :: segs)
  | kept {last list b s ps segs} : last ≠ .failed → Piece.string (.str b) = some s → Fits1 list s →
      Refuses .kept (joined list s) (ps :: segs) → Refuses last list ((.str b :: ps) :: segs)
  | failed {last list b s ps segs} : last ≠ .failed → Piece.string (.str b) = some s → ¬ Fits1 list s →
      Refuses .failed list segs → Refuses last list ((.str b :: ps) :: segs)

/-- The file is not looked into; or every string is read and ends, they fit with their colons, and none is
empty beside another; or the reading is refused. -/
def ReadsAll (host : Endian) (f : Bytes) (dtag : BitVec 32) : Prop :=
  fileSegments host f dtag = none ∨
    (∃ strs, allStrings host f dtag = some strs ∧ ([':'].intercalate strs).length < pathMax ∧ ([] ∈ strs → strs = [[]])) ∨
    ∃ segs, fileSegments host f dtag = some segs ∧ Refuses .none [] segs

/-! ## Lists that grow -/

def FitsAll (list : Str) : List Str → Prop
  | [] => True
  | s :: strs => Fits1 list s ∧ FitsAll (joined list s) strs

theorem fits1_length {list s : Str} (hl : list.length < pathMax) (h : Fits1 list s) : (joined list s).length < pathMax := by
  unfold Fits1 at h
  unfold joined
  by_cases hlist : list = []
  · simp [hlist] at h ⊢
    omega
  · rw [if_neg hlist] at h
    have hsep : (if list ≠ [] ∧ s ≠ [] then [':'] else []).length ≤ 1 := by split <;> simp
    rw [List.length_append, List.length_append]
    omega

theorem fitsAll_length {strs : List Str} {list : Str} (hl : list.length < pathMax) (h : FitsAll list strs) :
    (strs.foldl joined list).length < pathMax := by
  induction strs generalizing list with
  | nil => exact hl
  | cons s strs ih => exact ih (fits1_length hl h.1) h.2

theorem foldl_joined {strs : List Str} {list : Str} (hl : list ≠ []) (h : [] ∉ strs) :
    strs.foldl joined list = list ++ strs.flatMap (':' :: ·) := by
  induction strs generalizing list with
  | nil => simp
  | cons s strs ih =>
    rw [List.mem_cons, not_or] at h
    have hs : s ≠ [] := Ne.symm h.1
    have hj : joined list s = list ++ ':' :: s := by rw [joined, if_pos ⟨hl, hs⟩, List.append_assoc, List.singleton_append]
    rw [List.foldl_cons, hj, ih (by simp [hl]) h.2, List.flatMap_cons, List.append_assoc]

theorem intercalate_cons (s : Str) (strs : List Str) : [':'].intercalate (s :: strs) = s ++ strs.flatMap (':' :: ·) := by
  induction strs generalizing s with
  | nil => simp [List.intercalate]
  | cons t strs ih => rw [List.intercalate_cons_cons, ih, List.flatMap_cons, List.append_assoc]; rfl

theorem joined_nil (s : Str) : joined [] s = s := by simp [joined]

theorem foldl_joined_nil {strs : List Str} (h : [] ∉ strs) : strs.foldl joined [] = [':'].intercalate strs := by
  cases strs with
  | nil => rfl
  | cons s strs =>
    rw [List.mem_cons, not_or] at h
    rw [List.foldl_cons, joined_nil, foldl_joined (Ne.symm h.1) h.2, intercalate_cons]

@[simp] theorem joined_empty (list : Str) : joined list [] = list := by simp [joined]

theorem foldl_joined_filter (strs : List Str) (list : Str) :
    (strs.filter (· ≠ [])).foldl joined list = strs.foldl joined list := by
  induction strs generalizing list with
  | nil => rfl
  | cons s strs ih =>
    by_cases hs : s = []
    · rw [List.filter_cons_of_neg (by simp [hs]), List.foldl_cons, hs, joined_empty, ih]
    · rw [List.filter_cons_of_pos (by simpa using hs), List.foldl_cons, List.foldl_cons, ih]

theorem length_intercalate (strs : List Str) : ([':'].intercalate strs).length = strs.flatten.length + (strs.length - 1) := by
  have hflat : ∀ strs : List Str, (strs.flatMap (':' :: ·)).length = strs.flatten.length + strs.length := by
    intro strs
    induction strs with
    | nil => rfl
    | cons s strs ih =>
      rw [List.flatMap_cons, List.flatten_cons, List.length_append, List.length_append, ih, List.length_cons, List.length_cons]
      omega
  cases strs with
  | nil => rfl
  | cons s strs =>
    rw [intercalate_cons, List.length_append, hflat, List.flatten_cons, List.length_append, List.length_cons]
    omega

theorem alone_of_foldl {strs : List Str} (h : strs.foldl joined [] = [':'].intercalate strs) (hmem : [] ∈ strs) : strs = [[]] := by
  have hflat : (strs.filter (· ≠ [])).flatten = strs.flatten := List.flatten_filter_ne_nil
  have hlt : (strs.filter (· ≠ [])).length < strs.length := by
    rw [List.length_filter_lt_length_iff_exists]
    exact ⟨[], hmem, by simp⟩
  have hno : [] ∉ strs.filter (· ≠ []) := by simp
  have hlen := congrArg List.length h
  rw [← foldl_joined_filter, foldl_joined_nil hno, length_intercalate, length_intercalate, hflat] at hlen
  have hone : strs.length = 1 := by omega
  obtain ⟨s, rfl⟩ := List.length_eq_one_iff.mp hone
  rw [List.mem_singleton] at hmem
  rw [hmem]

theorem fitsAll_tail {strs : List Str} {list : Str} (hl : list ≠ []) (h : [] ∉ strs)
    (hlen : (list ++ strs.flatMap (':' :: ·)).length < pathMax) : FitsAll list strs := by
  induction strs generalizing list with
  | nil => trivial
  | cons s strs ih =>
    rw [List.mem_cons, not_or] at h
    have hj : joined list s = list ++ ':' :: s := by
      rw [joined, if_pos ⟨hl, Ne.symm h.1⟩, List.append_assoc, List.singleton_append]
    have hassoc : list ++ (s :: strs).flatMap (':' :: ·) = joined list s ++ strs.flatMap (':' :: ·) := by
      rw [hj, List.flatMap_cons, List.append_assoc]
    rw [hassoc] at hlen
    refine ⟨?_, ih (by simp [hj]) h.2 hlen⟩
    rw [hj] at hlen
    simp only [List.length_append, List.length_cons] at hlen
    unfold Fits1
    rw [if_neg hl]
    omega

theorem fitsAll_of_intercalate {strs : List Str} (hlen : ([':'].intercalate strs).length < pathMax)
    (h : [] ∈ strs → strs = [[]]) : FitsAll [] strs := by
  by_cases hmem : [] ∈ strs
  · rw [h hmem]
    exact ⟨by simp [Fits1], trivial⟩
  · cases strs with
    | nil => trivial
    | cons s strs =>
      rw [List.mem_cons, not_or] at hmem
      rw [intercalate_cons] at hlen
      refine ⟨?_, ?_⟩
      · rw [List.length_append] at hlen
        unfold Fits1
        rw [if_pos rfl, List.length_nil]
        omega
      · rw [joined_nil]
        exact fitsAll_tail (Ne.symm hmem.1) hmem.2 hlen

/-! ## The run of the callback -/

def pathCall (list : Option Str) (b : Bytes) : Option Str × Int := listCallback .elf64 list (.str b)

def logCall (s : Option Str × List Int) (b : Bytes) : (Option Str × List Int) × Int :=
  (((pathCall s.1 b).1, s.2 ++ [(pathCall s.1 b).2]), (pathCall s.1 b).2)

section
variable {list s : Str} {b : Bytes} {log : List Int}

theorem logCall_kept (hs : Piece.string (.str b) = some s) (hf : Fits1 list s) :
    logCall (some list, log) b = ((some (joined list s), log ++ [0]), 0) := by
  have hcat : pathStrncat list s pathMax = .ok (joined list s) := pathStrncat_iff.mpr ⟨hf, rfl⟩
  have hs : (strOf b).map toStr = some s := hs
  have hcall : pathCall (some list) b = (some (joined list s), 0) := by simp only [pathCall, listCallback, hs, hcat]
  rw [logCall, hcall]

theorem logCall_failed (hs : Piece.string (.str b) = some s) (hf : ¬ Fits1 list s) :
    logCall (some list, log) b = ((some list, log ++ [-1]), -1) := by
  have hs : (strOf b).map toStr = some s := hs
  have hcall : pathCall (some list) b = (some list, -1) := by
    simp only [pathCall, listCallback, hs]
    cases hcat : pathStrncat list s pathMax with
    | ok p => exact absurd (pathStrncat_iff.mp hcat).1 hf
    | error e => rfl
  rw [logCall, hcall]

theorem logCall_fault (hs : Piece.string (.str b) = none) (l : Option Str) :
    logCall (l, log) b = ((none, log ++ [0]), 0) := by
  have hs : (strOf b).map toStr = none := hs
  have hcall : pathCall l b = (none, 0) := by
    cases l <;> simp only [pathCall, listCallback, hs]
  rw [logCall, hcall]

theorem logCall_none : logCall (none, log) b = ((none, log ++ [0]), 0) := rfl

end

theorem runSegments_next {σ : Type} (call : σ → Bytes → σ × Int) (segs : List (List Piece)) (s : σ) (ret : Int) :
    runSegments call ([] :: segs) s ret = runSegments call segs s ret := rfl

theorem runSegments_bad {σ : Type} (call : σ → Bytes → σ × Int) (ps : List Piece) (segs : List (List Piece)) (s : σ) (ret : Int) :
    runSegments call ((.bad :: ps) :: segs) s ret = (s, ret) := rfl

theorem runSegments_short {σ : Type} (call : σ → Bytes → σ × Int) (ps : List Piece) (segs : List (List Piece)) (s : σ) (ret : Int) :
    runSegments call ((.short :: ps) :: segs) s ret = (s, -1) := rfl

theorem runSegments_str {σ : Type} {call : σ → Bytes → σ × Int} {b : Bytes} {ps : List Piece} {segs : List (List Piece)}
    {s s' : σ} {ret k : Int} (h : call s b = (s', k)) : runSegments call ((.str b :: ps) :: segs) s ret =
      if k = 0 then runSegments call (ps :: segs) s' 0 else runSegments call segs s' k := by
  rw [runSegments, runPieces, h]
  by_cases hk : k = 0
  · simp only [hk, ne_eq, not_true_eq_false, if_false, if_true]
    rfl
  · simp only [hk, ne_eq, not_false_eq_true, if_true, if_false, Bool.false_eq_true]

theorem runSegments_log (segs : List (List Piece)) (l : Option Str) (log : List Int) (ret : Int) :
    ∃ codes, (runSegments logCall segs (l, log) ret).1.2 = log ++ codes := by
  induction segs generalizing l log ret with
  | nil => exact ⟨[], (List.append_nil log).symm⟩
  | cons ps segs ih =>
    induction ps generalizing l log ret with
    | nil => exact ih l log ret
    | cons p ps ihp =>
      cases p with
      | bad => exact ⟨[], (List.append_nil log).symm⟩
      | short => exact ⟨[], (List.append_nil log).symm⟩
      | str b =>
        have hstep : logCall (l, log) b = (((pathCall l b).1, log ++ [(pathCall l b).2]), (pathCall l b).2) := rfl
        rw [runSegments_str hstep]
        by_cases hk : (pathCall l b).2 = 0
        · rw [if_pos hk]
          obtain ⟨codes, h⟩ := ihp (pathCall l b).1 (log ++ [(pathCall l b).2]) 0
          exact ⟨(pathCall l b).2 :: codes, by rw [h, List.append_assoc, List.singleton_append]⟩
        · rw [if_neg hk]
          obtain ⟨codes, h⟩ := ih (pathCall l b).1 (log ++ [(pathCall l b).2]) (pathCall l b).2
          exact ⟨(pathCall l b).2 :: codes, by rw [h, List.append_assoc, List.singleton_append]⟩

theorem runSegments_none (segs : List (List Piece)) (log : List Int) (ret : Int) :
    (runSegments logCall segs (none, log) ret).1.1 = none := by
  induction segs generalizing log ret with
  | nil => rfl
  | cons ps segs ih =>
    induction ps generalizing log ret with
    | nil => exact ih log ret
    | cons p ps ihp =>
      cases p with
      | bad => rfl
      | short => rfl
      | str b =>
        rw [runSegments_str logCall_none, if_pos rfl]
        exact ihp _ _

/-- After a callback that failed: the reading is refused, or it does not fail, or another string comes. -/
theorem runSegments_failed (segs : List (List Piece)) (list : Str) (log : List Int) :
    Refuses .failed list segs ∨ (runSegments logCall segs (some list, log) (-1)).2 ≠ -1 ∨
      ∃ code codes, (runSegments logCall segs (some list, log) (-1)).1.2 = log ++ code :: codes := by
  induction segs with
  | nil => exact .inr (.inl (show (0 : Int) ≠ -1 by decide))
  | cons ps segs ih =>
    cases ps with
    | nil =>
      rw [runSegments_next]
      exact ih.imp .next id
    | cons p ps =>
      cases p with
      | bad => exact .inl (.bad nofun)
      | short => exact .inl .short
      | str b =>
        refine .inr (.inr ?_)
        have hstep : logCall (some list, log) b =
            (((pathCall (some list) b).1, log ++ [(pathCall (some list) b).2]), (pathCall (some list) b).2) := rfl
        rw [runSegments_str hstep]
        split
        · obtain ⟨codes, h⟩ := runSegments_log (ps :: segs) (pathCall (some list) b).1 (log ++ [(pathCall (some list) b).2]) 0
          exact ⟨_, codes, by rw [h, List.append_assoc, List.singleton_append]⟩
        · obtain ⟨codes, h⟩ := runSegments_log segs (pathCall (some list) b).1 (log ++ [(pathCall (some list) b).2])
            (pathCall (some list) b).2
          exact ⟨_, codes, by rw [h, List.append_assoc, List.singleton_append]⟩

def Last.ret : Last → Int
  | .none => -1
  | .kept => 0
  | .failed => -1

/-- A string was lost without the reader failing, or not at once. -/
def Loses (segs : List (List Piece)) (log : List Int) (r : (Option Str × List Int) × Int) : Prop :=
  r.1.1 = none ∨ (r.2 ≠ -1 ∧ segs.flatten.mapM Piece.string = none) ∨
    ∃ pre post, r.1.2 = log ++ (pre ++ -1 :: post) ∧ (post ≠ [] ∨ r.2 ≠ -1)

theorem mapM_string_cons {b : Bytes} {s : Str} {ps : List Piece} {segs : List (List Piece)}
    (hs : Piece.string (.str b) = some s) : ((.str b :: ps) :: segs).flatten.mapM Piece.string =
      ((ps :: segs).flatten.mapM Piece.string).map (s :: ·) := by
  rw [List.flatten_cons, List.cons_append, List.mapM_cons, hs, List.flatten_cons]
  cases (ps ++ segs.flatten).mapM Piece.string <;> rfl

theorem runSegments_cases (segs : List (List Piece)) (list : Str) (log : List Int) (last : Last) (hl : last ≠ .failed) :
    (∃ strs, segs.flatten.mapM Piece.string = some strs ∧ FitsAll list strs) ∨ Refuses last list segs ∨
      Loses segs log (runSegments logCall segs (some list, log) last.ret) := by
  induction segs generalizing list log last with
  | nil => exact .inl ⟨[], rfl, trivial⟩
  | cons ps segs ih =>
    induction ps generalizing list log last with
    | nil =>
      rw [runSegments_next]
      exact (ih list log last hl).imp id (.imp .next id)
    | cons p ps ihp =>
      cases p with
      | bad =>
        rw [runSegments_bad]
        cases last with
        | none => exact .inr (.inl (.bad nofun))
        | kept => exact .inr (.inr (.inr (.inl ⟨by simp [Last.ret], by simp [Piece.string]⟩)))
        | failed => exact absurd rfl hl
      | short => exact .inr (.inl .short)
      | str b =>
        cases hs : Piece.string (.str b) with
        | none =>
          rw [runSegments_str (logCall_fault hs _), if_pos rfl]
          exact .inr (.inr (.inl (runSegments_none _ _ _)))
        | some s =>
          rw [Loses, mapM_string_cons hs]
          by_cases hf : Fits1 list s
          · rw [runSegments_str (logCall_kept hs hf), if_pos rfl]
            rcases ihp (joined list s) (log ++ [0]) .kept nofun with ⟨strs, hstrs, hfits⟩ | hr | hlose
            · exact .inl ⟨s :: strs, by rw [hstrs]; rfl, hf, hfits⟩
            · exact .inr (.inl (.kept hl hs hf hr))
            · refine .inr (.inr (hlose.imp id (.imp (fun h => ⟨h.1, by rw [h.2]; rfl⟩) ?_)))
              rintro ⟨pre, post, h, hp⟩
              exact ⟨0 :: pre, post, h.trans (by rw [List.append_assoc, List.singleton_append, List.cons_append]), hp⟩
          · rw [runSegments_str (logCall_failed hs hf), if_neg (by decide)]
            rcases runSegments_failed segs list (log ++ [-1]) with hr | hret | ⟨code, codes, hlog⟩
            · exact .inr (.inl (.failed hl hs hf hr))
            · obtain ⟨codes, hlog⟩ := runSegments_log segs (some list) (log ++ [-1]) (-1)
              refine .inr (.inr (.inr (.inr ⟨[], codes, ?_, .inr hret⟩)))
              rw [hlog, List.append_assoc, List.singleton_append, List.nil_append]
            · refine .inr (.inr (.inr (.inr ⟨[], code :: codes, ?_, .inl (by simp)⟩)))
              rw [hlog, List.append_assoc, List.singleton_append, List.nil_append]

theorem runSegments_kept (segs : List (List Piece)) (list : Str) (log : List Int) (ret : Int) {strs : List Str}
    (h : segs.flatten.mapM Piece.string = some strs) (hf : FitsAll list strs) :
    runSegments logCall segs (some list, log) ret = ((some (strs.foldl joined list), log ++ List.replicate strs.length 0), 0) := by
  induction segs generalizing list log ret strs with
  | nil =>
    cases h
    simp [runSegments]
  | cons ps segs ih =>
    induction ps generalizing list log ret strs with
    | nil => exact ih list log ret h hf
    | cons p ps ihp =>
      cases p with
      | bad => simp [Piece.string] at h
      | short => simp [Piece.string] at h
      | str b =>
        cases hs : Piece.string (.str b) with
        | none => simp [hs] at h
        | some s =>
          rw [mapM_string_cons hs] at h
          obtain ⟨strs, hrest, rfl⟩ := Option.map_eq_some_iff.mp h
          rw [runSegments_str (logCall_kept hs hf.1), if_pos rfl, ihp _ _ _ hrest hf.2, List.foldl_cons, List.length_cons,
            List.replicate_succ, List.append_assoc, List.singleton_append]

/-- A reading that is refused fails, and calls no callback after one that failed. -/
theorem runSegments_refused {segs : List (List Piece)} {list : Str} {last : Last} (h : Refuses last list segs) (log : List Int) :
    ∃ list' codes, runSegments logCall segs (some list, log) last.ret = ((some list', log ++ codes), -1) ∧
      (last = .failed → codes = []) ∧ ∀ pre post, codes = pre ++ -1 :: post → post = [] := by
  induction h generalizing log with
  | @bad last list ps segs hl =>
    refine ⟨list, [], ?_, fun _ => rfl, by simp⟩
    rw [runSegments_bad, List.append_nil]
    cases last with
    | none | failed => rfl
    | kept => exact absurd rfl hl
  | @short last list ps segs => exact ⟨list, [], by rw [runSegments_short, List.append_nil], fun _ => rfl, by simp⟩
  | next _ ih => exact ih log
  | kept hl hs hf _ ih =>
    obtain ⟨list', codes, hrun, -, hquiet⟩ := ih (log ++ [0])
    refine ⟨list', 0 :: codes, ?_, fun hk => absurd hk hl, ?_⟩
    · rw [runSegments_str (logCall_kept hs hf), if_pos rfl]
      exact hrun.trans (by rw [List.append_assoc, List.singleton_append])
    · intro pre post h
      cases pre with
      | nil => cases h
      | cons x pre => exact hquiet pre post (List.cons.inj h).2
  | failed hl hs hf _ ih =>
    obtain ⟨list', codes, hrun, hnil, -⟩ := ih (log ++ [-1])
    rw [hnil rfl] at hrun
    refine ⟨list', [-1], ?_, fun hk => absurd hk hl, ?_⟩
    · rw [runSegments_str (logCall_failed hs hf), if_neg (by decide)]
      exact hrun.trans (by rw [List.append_nil])
    · intro pre post h
      cases pre with
      | nil => exact (List.cons.inj h).2.symm
      | cons x pre => cases pre <;> cases (List.cons.inj h).2

theorem runSegments_pathCall (segs : List (List Piece)) (l : Option Str) (log : List Int) (ret : Int) :
    runSegments pathCall segs l ret =
      ((runSegments logCall segs (l, log) ret).1.1, (runSegments logCall segs (l, log) ret).2) := by
  induction segs generalizing l log ret with
  | nil => rfl
  | cons ps segs ih =>
    induction ps generalizing l log ret with
    | nil => exact ih l log ret
    | cons p ps ihp =>
      cases p with
      | bad => rfl
      | short => rfl
      | str b =>
        have hstep : logCall (l, log) b = (((pathCall l b).1, log ++ [(pathCall l b).2]), (pathCall l b).2) := rfl
        rw [runSegments_str hstep, runSegments_str (show pathCall l b = ((pathCall l b).1, (pathCall l b).2) from rfl)]
        by_cases hk : (pathCall l b).2 = 0
        · rw [if_pos hk, if_pos hk]
          exact ihp _ _ _
        · rw [if_neg hk, if_neg hk]
          exact ih _ _ _

theorem listCallback_str (c : Class) (l : Option Str) (b : Bytes) : listCallback c l (.str b) = pathCall l b := rfl

theorem logging_str (c : Class) (s : Option Str × List Int) (b : Bytes) :
    logging (listCallback c) s (.str b) = logCall s b := rfl

/-! ## The readers of lists -/

section
variable (host : Endian) (f : Bytes)

inductive ListTag where
  | needed
  | rpath
  | runpath

def ListTag.dtag : ListTag → BitVec 32
  | .needed => dtNeeded
  | .rpath => dtRpath
  | .runpath => dtRunpath

variable {host f} {dtag : BitVec 32} (ht : isString dtag = true)
include ht

theorem felfList_unread (h : fileSegments host f dtag = none) :
    felfList host f dtag = .fail ∧ callbackCodes host f dtag = [] := by
  constructor
  · rw [felfList, sharedObject_segments ht listCallback_str, h]
    rfl
  · rw [callbackCodes, sharedObject_segments ht logging_str, h]
    rfl

theorem felfList_read {segs : List (List Piece)} (h : fileSegments host f dtag = some segs) {l : Option Str}
    {codes : List Int} {ret : Int} (hr : runSegments logCall segs (some [], []) (-1) = ((l, codes), ret)) :
    felfList host f dtag = .of ret l ∧ callbackCodes host f dtag = codes := by
  constructor
  · rw [felfList, sharedObject_segments ht listCallback_str, h]
    dsimp only [Option.elim_some]
    rw [runSegments_pathCall segs (some []) [] (-1), hr]
  · rw [callbackCodes, sharedObject_segments ht logging_str, h]
    exact congrArg (fun r => r.1.2) hr

end

/-- **No dependency is lost silently** exactly when every string is read, fits and is not an empty one among
others, or the reading is refused. -/
theorem noneLost_iff (host : Endian) (f : Bytes) (t : ListTag) : NoneLost host f t.dtag ↔ ReadsAll host f t.dtag := by
  have ht : isString t.dtag = true := by cases t <;> rfl
  generalize t.dtag = dtag at ht ⊢
  cases hsegs : fileSegments host f dtag with
  | none =>
    obtain ⟨hfail, hcodes⟩ := felfList_unread ht hsegs
    refine iff_of_true ⟨by simp [hfail], fun list h => ?_, fun pre post h => ?_⟩ (.inl hsegs)
    · rw [hfail] at h; cases h
    · rw [hcodes] at h
      cases pre <;> cases h
  | some segs =>
    have hall : allStrings host f dtag = segs.flatten.mapM Piece.string := by rw [allStrings, hsegs]; rfl
    have hkept : ∀ strs, segs.flatten.mapM Piece.string = some strs → FitsAll [] strs →
        felfList host f dtag = .done (strs.foldl joined []) ∧
          callbackCodes host f dtag = List.replicate strs.length 0 := fun strs h hf =>
      felfList_read ht hsegs (runSegments_kept segs [] [] (-1) h hf)
    constructor
    · intro hn
      rcases runSegments_cases segs [] [] .none nofun with ⟨strs, hstrs, hfits⟩ | href | hlose
      · obtain ⟨hdone, -⟩ := hkept strs hstrs hfits
        obtain ⟨strs', hstrs', hjoin⟩ := hn.whole _ hdone
        rw [hall, hstrs] at hstrs'
        cases hstrs'
        refine .inr (.inl ⟨strs, by rw [hall, hstrs], ?_, alone_of_foldl hjoin⟩)
        rw [← hjoin]
        exact fitsAll_length (by decide) hfits
      · exact .inr (.inr ⟨segs, hsegs, href⟩)
      · generalize hrun : runSegments logCall segs (some [], []) Last.none.ret = r at hlose
        obtain ⟨⟨l, codes⟩, ret⟩ := r
        obtain ⟨hlist, hcodes⟩ := felfList_read ht hsegs hrun
        cases l with
        | none => exact absurd hlist hn.defined
        | some list =>
          rcases hlose with hnone | ⟨hret, hmap⟩ | ⟨pre, post, hlog, hpost⟩
          · cases hnone
          · obtain ⟨strs, hstrs, -⟩ := hn.whole list (hlist.trans (if_neg hret))
            rw [hall, hmap] at hstrs
            cases hstrs
          · obtain ⟨hnil, hfail⟩ := hn.failed pre post (hcodes.trans hlog)
            rcases hpost with hpost | hret
            · exact absurd hnil hpost
            · rw [hlist, ListRead.of, if_neg hret] at hfail
              cases hfail
    · rintro (h | ⟨strs, hstrs, hlen, halone⟩ | ⟨segs', hsegs', href⟩)
      · rw [hsegs] at h
        cases h
      · rw [hall] at hstrs
        obtain ⟨hdone, hcodes⟩ := hkept strs hstrs (fitsAll_of_intercalate hlen halone)
        have hjoin : strs.foldl joined [] = [':'].intercalate strs := by
          by_cases hmem : [] ∈ strs
          · rw [halone hmem]; rfl
          · exact foldl_joined_nil hmem
        refine ⟨by simp [hdone], fun list h => ⟨strs, by rw [hall, hstrs], ?_⟩, fun pre post h => ?_⟩
        · rw [hdone] at h
          exact (ListRead.done.inj h).symm.trans hjoin
        · have hmem : (-1 : Int) ∈ List.replicate strs.length (0 : Int) := by rw [← hcodes, h]; simp
          exact absurd (List.eq_of_mem_replicate hmem) (by decide)
      · cases hsegs.symm.trans hsegs'
        obtain ⟨list', codes, hrun, -, hquiet⟩ := runSegments_refused href []
        obtain ⟨hlist, hcodes⟩ := felfList_read ht hsegs hrun
        have hfail : felfList host f dtag = .fail := hlist
        refine ⟨by simp [hfail], fun list h => ?_, fun pre post h => ⟨?_, hfail⟩⟩
        · rw [hfail] at h; cases h
        · rw [hcodes] at h
          exact hquiet pre post h

def longNeeded : Bytes :=
  let half (x : Byte) : Bytes := [x, 0]
  let word (x y : Byte) : Bytes := [x, y, 0, 0]
  elfMag ++ [1, 1, 1, 0, 0, 0, 0, 0, 0, 0, 0, 0] ++ half 3 ++ half 3 ++ word 1 0 ++ word 0 0 ++ word 52 0 ++
    word 0x6f 0x10 ++ word 0 0 ++ half 52 ++ half 32 ++ half 1 ++ half 40 ++ half 1 ++ half 0 ++
  (word 2 0 ++ word 84 0 ++ word 84 0 ++ word 84 0 ++ word 24 0 ++ word 24 0 ++ word 6 0 ++ word 4 0) ++
  (word 1 0 ++ word 1 0 ++ word 1 0 ++ word 1 0x10 ++ word 0 0 ++ word 0 0) ++
  ([0] ++ List.replicate 4095 0x61 ++ [0, 0x62, 0]) ++
  (word 0 0 ++ word 3 0 ++ word 2 0 ++ word 108 0 ++ word 108 0 ++ word 3 0x10 ++ word 0 0 ++ word 0 0 ++ word 1 0 ++ word 0 0)

set_option maxRecDepth 20000 in
theorem longNeeded_codes : callbackCodes .little longNeeded dtNeeded = [0, -1] ∧ felfNeeded .little longNeeded ≠ .fail := by
  decide +kernel

/-- The second object does not fit, and the list that is returned does not have it. -/
theorem noneLost_long : ¬ NoneLost .little longNeeded dtNeeded := by
  intro hn
  exact longNeeded_codes.2 (hn.failed [0] [] longNeeded_codes.1).2

end Iamroot
