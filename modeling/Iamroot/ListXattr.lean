import Iamroot.XattrMap

/-!
# The list of the caller

The three listings fetch the names of the host in a buffer of their own, and
copy what they show of each, with its NUL, behind what they have copied before.
The size of the caller's list is not looked at. The buffer of `listxattr` has
room for one name, those of its siblings for any list.
-/

namespace Iamroot

/-- The loop, with a list of the caller or a null pointer. What is written is kept as the offset and the bytes of each `strcpy`. -/
def writeLoop (xbuf : Str) (xsize : Nat) (list : Bool) : Nat → Nat → Nat → List (Nat × Str) → Nat × List (Nat × Str)
  | 0, _, ret, writes => (ret, writes)
  | fuel + 1, i, ret, writes =>
    let name := cstr (xbuf.drop i)
    let len := name.length
    if len = 0 then (ret, writes)
    else
      let off := if strneq name xattrsPrefix xattrsPrefix.length then xattrsPrefix.length else 0
      let writes := if list then writes ++ [(ret, name.drop off ++ [nul])] else writes
      let ret := if len ≠ off then ret + (len + 1 - off) else ret
      if i + len + 1 < xsize then writeLoop xbuf xsize list fuel (i + len + 1) ret writes else (ret, writes)

/-- `listxattr`, `llistxattr` and `flistxattr`, with what they write to the list; `list` is its size, or a null pointer. -/
def XattrArg.listxattrTo (resolve : XattrResolve) (fs : XattrFiles) (a : XattrArg) (list : Option Nat) (v : Option Errno) :
    Except Errno Nat × List (Nat × Str) :=
  match a.file resolve fs with
  | .error e => (.error e, [])
  | .ok i =>
    match nextListxattr fs i a.listsiz v with
    | .error e => (.error e, [])
    | .ok xbuf =>
      let r := writeLoop (xbuf ++ [nul]) xbuf.length list.isSome (xbuf.length + 1) 0 0 []
      (.ok r.1, r.2)

def Wrote (writes : List (Nat × Str)) (k : Nat) : Prop := ∃ w ∈ writes, w.1 ≤ k ∧ k < w.1 + w.2.length

/-- The contract of listxattr(2) for names that take `needed` bytes and a list of the caller. -/
structure ListContract (needed : Nat) (list : Option Nat) (r : Except Errno Nat × List (Nat × Str)) : Prop where
  inside : ∀ k, Wrote r.2 k → k < list.getD 0
  small : list.getD 0 ≠ 0 → list.getD 0 < needed → r = (.error .ERANGE, [])
  query : list.getD 0 = 0 → r.1 = .ok needed
  fits : needed ≤ list.getD 0 → r.1 = .ok needed
  exact : ∀ n, list.getD 0 ≠ 0 → r.1 = .ok n → ∀ k, Wrote r.2 k ↔ k < n

def neededSize (ns : List Str) : Nat := (terminated (ns.filterMap shown)).length

def listWrites : List Str → Nat → List (Nat × Str)
  | [], _ => []
  | n :: ns, ret => (ret, bare n ++ [nul]) :: listWrites ns (ret + (terminated (shown n).toList).length)

/-- The bytes that are written: the NUL of a last name of which nothing is left is one more. -/
def writtenSize (ns : List Str) : Nat := neededSize ns + if ns.getLast? = some xattrsPrefix then 1 else 0

variable {ns : List Str} {n : Str} {ret k : Nat}

theorem neededSize_cons (n : Str) (ns : List Str) : neededSize (n :: ns) = (terminated (shown n).toList).length + neededSize ns := by
  rw [neededSize, neededSize, ← List.length_append, ← terminated_append]
  cases h : shown n <;> simp [h]

theorem length_shown (hn : n ≠ []) : (terminated (shown n).toList).length = if n = xattrsPrefix then 0 else (bare n).length + 1 := by
  by_cases hp : xattrsPrefix <+: n
  · obtain ⟨m, rfl⟩ := hp
    by_cases hm : m = []
    · subst hm
      rw [if_pos (List.append_nil _)]
      rfl
    · have hne : xattrsPrefix ++ m ≠ xattrsPrefix := by simpa using hm
      rw [if_neg hne, shown, if_pos (List.prefix_append _ _), bare_append, if_neg hm]
      simp [terminated]
  · have hne : n ≠ xattrsPrefix := fun e => hp (e ▸ List.prefix_rfl)
    rw [if_neg hne, shown, if_neg hp, bare_of_not hp]
    simp [terminated]

theorem wrote_cons (w : Nat × Str) (ws : List (Nat × Str)) (k : Nat) :
    Wrote (w :: ws) k ↔ (w.1 ≤ k ∧ k < w.1 + w.2.length) ∨ Wrote ws k := by
  simp [Wrote]

theorem writtenSize_cons (n : Str) (hns : ns ≠ []) : writtenSize (n :: ns) = (terminated (shown n).toList).length + writtenSize ns := by
  obtain ⟨m, l, rfl⟩ := List.exists_cons_of_ne_nil hns
  rw [writtenSize, writtenSize, neededSize_cons, List.getLast?_cons_cons, Nat.add_assoc]

theorem writtenSize_single (hn : n ≠ []) : writtenSize [n] = (bare n).length + 1 := by
  rw [writtenSize, neededSize_cons, length_shown hn]
  by_cases h : n = xattrsPrefix
  · subst h
    rfl
  · simp [h, neededSize, terminated]

theorem writtenSize_pos (hv : ∀ n ∈ ns, n ≠ []) (hns : ns ≠ []) : 0 < writtenSize ns := by
  induction ns with
  | nil => exact absurd rfl hns
  | cons n ns ih =>
    obtain ⟨hn, hv⟩ := List.forall_mem_cons.mp hv
    by_cases h : ns = []
    · rw [h, writtenSize_single hn]
      exact Nat.succ_pos _
    · rw [writtenSize_cons n h]
      exact Nat.add_pos_right _ (ih hv h)

theorem wrote_listWrites (hv : ∀ n ∈ ns, n ≠ []) (ret k : Nat) : Wrote (listWrites ns ret) k ↔ ret ≤ k ∧ k < ret + writtenSize ns := by
  induction ns generalizing ret with
  | nil => simp [listWrites, Wrote, writtenSize, neededSize, terminated]
  | cons n ns ih =>
    obtain ⟨hn, hv⟩ := List.forall_mem_cons.mp hv
    rw [listWrites, wrote_cons, ih hv, length_shown hn]
    show (ret ≤ k ∧ k < ret + (bare n ++ [nul]).length) ∨ _ ↔ _
    rw [List.length_append, List.length_singleton]
    by_cases h : ns = []
    · subst h
      rw [writtenSize_single hn]
      simp only [writtenSize, neededSize, terminated, List.filterMap_nil, List.flatMap_nil, List.length_nil, List.getLast?_nil]
      simp only [reduceCtorEq, if_false, Nat.add_zero]
      exact or_iff_left fun h => absurd h.2 (Nat.not_lt.mpr h.1)
    · rw [writtenSize_cons n h, length_shown hn]
      have hpos := writtenSize_pos hv h
      split
      · rename_i hp
        rw [hp]
        have hb : (bare xattrsPrefix).length = 0 := rfl
        omega
      · omega

theorem shown_offset (hn : n ≠ []) (ret : Nat) :
    n.drop (if strneq n xattrsPrefix xattrsPrefix.length then xattrsPrefix.length else 0) = bare n ∧
    (if n.length ≠ (if strneq n xattrsPrefix xattrsPrefix.length then xattrsPrefix.length else 0) then
        ret + (n.length + 1 - if strneq n xattrsPrefix xattrsPrefix.length then xattrsPrefix.length else 0)
      else ret) = ret + (terminated (shown n).toList).length := by
  rw [length_shown hn]
  by_cases hp : xattrsPrefix <+: n
  · rw [if_pos ((strneq_isPrefix n).mpr hp)]
    obtain ⟨m, rfl⟩ := hp
    rw [List.drop_left, bare_append, List.length_append]
    refine ⟨rfl, ?_⟩
    by_cases hm : m = []
    · subst hm
      simp
    · have hne : xattrsPrefix ++ m ≠ xattrsPrefix := by simpa using hm
      have hlen : xattrsPrefix.length + m.length ≠ xattrsPrefix.length := by simpa using hm
      rw [if_neg hne, if_pos hlen]
      omega
  · have hs : ¬ strneq n xattrsPrefix xattrsPrefix.length = true := mt (strneq_isPrefix n).mp hp
    have hne : n ≠ xattrsPrefix := fun e => hp (e ▸ List.prefix_rfl)
    have hlen : n.length ≠ 0 := fun h0 => hn (List.eq_nil_of_length_eq_zero h0)
    rw [if_neg hs, if_pos hlen, if_neg hne, bare_of_not hp]
    exact ⟨rfl, rfl⟩

/-- The loop counts the bytes that are needed, and writes the names one behind the other. -/
theorem writeLoop_eq {xbuf : Str} {xsize : Nat} (list : Bool) (ns : List Str) (hv : ∀ n ∈ ns, ValidXattr n) (fuel i ret : Nat)
    (writes : List (Nat × Str)) (hfuel : ns.length < fuel) (hd : xbuf.drop i = terminated ns ++ [nul])
    (hi : i + (terminated ns).length = xsize) : writeLoop xbuf xsize list fuel i ret writes =
      (ret + neededSize ns, if list then writes ++ listWrites ns ret else writes) := by
  induction ns generalizing fuel i ret writes with
  | nil =>
    obtain ⟨fuel, rfl⟩ := Nat.exists_eq_succ_of_ne_zero (Nat.ne_zero_of_lt hfuel)
    have hname : cstr (xbuf.drop i) = [] := by rw [hd]; rfl
    rw [writeLoop]
    simp [hname, listWrites, neededSize, terminated]
  | cons n ns ih =>
    obtain ⟨fuel, rfl⟩ := Nat.exists_eq_succ_of_ne_zero (Nat.ne_zero_of_lt hfuel)
    obtain ⟨⟨hne, hnul, -⟩, hv'⟩ := List.forall_mem_cons.mp hv
    obtain ⟨hname, hrest, hi'⟩ := read_name hnul hd hi
    have hlen : n.length ≠ 0 := fun h0 => hne (List.eq_nil_of_length_eq_zero h0)
    obtain ⟨hdrop, hret⟩ := shown_offset hne ret
    rw [writeLoop]
    simp only [hname, if_neg hlen, hdrop, hret]
    have hfuel' : ns.length < fuel := by simpa using hfuel
    have hwrites : ∀ ws, (if list = true then (if list = true then writes ++ [(ret, bare n ++ [nul])] else writes) ++ ws
        else if list = true then writes ++ [(ret, bare n ++ [nul])] else writes) =
          if list = true then writes ++ (ret, bare n ++ [nul]) :: ws else writes := by
      intro ws
      cases list <;> simp
    split
    · rw [ih hv' fuel _ _ _ hfuel' hrest hi', hwrites, neededSize_cons, Nat.add_assoc]
      rfl
    · -- nothing is left to read
      obtain rfl : ns = [] := by
        by_contra hns
        obtain ⟨m, l, rfl⟩ := List.exists_cons_of_ne_nil hns
        simp only [terminated_cons, List.length_append, List.length_cons] at hi'
        omega
      rw [neededSize_cons]
      rfl

/-! ## The text of the list -/

def laid (writes : List (Nat × Str)) (k : Nat) : Option Char :=
  writes.foldl (fun c w => if w.1 ≤ k ∧ k < w.1 + w.2.length then w.2[k - w.1]? else c) none

theorem laid_concat (writes : List (Nat × Str)) (w : Nat × Str) (k : Nat) :
    laid (writes ++ [w]) k = if w.1 ≤ k ∧ k < w.1 + w.2.length then w.2[k - w.1]? else laid writes k := by
  rw [laid, List.foldl_append]
  rfl

theorem laid_next {writes : List (Nat × Str)} {text : Str} (h : ∀ k < text.length, laid writes k = text[k]?) (s : Str) :
    (∀ k < text.length, laid (writes ++ [(text.length, s)]) k = text[k]?) ∧
      ∀ k < (text ++ s).length, laid (writes ++ [(text.length, s)]) k = (text ++ s)[k]? := by
  constructor
  · intro k hk
    rw [laid_concat, if_neg fun hc => Nat.not_le_of_lt hk hc.1, h k hk]
  · intro k hk
    rw [List.length_append] at hk
    rw [laid_concat]
    by_cases hlt : k < text.length
    · rw [if_neg fun hc => Nat.not_le_of_lt hlt hc.1, h k hlt, List.getElem?_append_left hlt]
    · have hle := Nat.le_of_not_lt hlt
      rw [if_pos ⟨hle, hk⟩, List.getElem?_append_right hle]

/-- The writes leave the text that the loop of `listxattr` keeps, and count its bytes. -/
theorem writeLoop_listLoop (xbuf : Str) (xsize fuel i : Nat) (text : Str) (writes : List (Nat × Str))
    (h : ∀ k < text.length, laid writes k = text[k]?) :
    (writeLoop xbuf xsize true fuel i text.length writes).1 = (listLoop xbuf xsize fuel i text).length ∧
      ∀ k < (listLoop xbuf xsize fuel i text).length,
        laid (writeLoop xbuf xsize true fuel i text.length writes).2 k = (listLoop xbuf xsize fuel i text)[k]? := by
  induction fuel generalizing i text writes with
  | zero => exact ⟨rfl, h⟩
  | succ fuel ih =>
    rw [writeLoop, listLoop]
    dsimp only
    by_cases hlen : (cstr (xbuf.drop i)).length = 0
    · rw [if_pos hlen, if_pos hlen]
      exact ⟨rfl, h⟩
    · rw [if_neg hlen, if_neg hlen, if_pos rfl]
      generalize hname : cstr (xbuf.drop i) = name
      generalize hoff : (if strneq name xattrsPrefix xattrsPrefix.length then xattrsPrefix.length else 0) = off
      have hle : off ≤ name.length := by
        rw [← hoff]
        split
        · rename_i hp
          exact ((strneq_isPrefix name).mp hp).length_le
        · exact Nat.zero_le _
      obtain ⟨hkept, hnext⟩ := laid_next h (name.drop off ++ [nul])
      by_cases hne : name.length ≠ off
      · have hret : text.length + (name.length + 1 - off) = (text ++ name.drop off ++ [nul]).length := by
          simp only [List.length_append, List.length_drop, List.length_singleton]
          omega
        rw [if_pos hne, if_pos hne, hret]
        rw [← List.append_assoc] at hnext
        split
        · exact ih _ _ _ hnext
        · exact ⟨rfl, hnext⟩
      · -- nothing is left of the name, and its NUL is written over
        rw [if_neg hne, if_neg hne]
        split
        · exact ih _ _ _ hkept
        · exact ⟨rfl, hkept⟩

/-- A listing counts the bytes of what `listxattr` lists, and leaves them in the list of the caller. -/
theorem listxattrTo_listxattr (resolve : XattrResolve) (fs : XattrFiles) (a : XattrArg) (size : Nat) (v : Option Errno) :
    (a.listxattrTo resolve fs (some size) v).1 = (a.listxattr resolve fs v).map List.length ∧
      ∀ text, a.listxattr resolve fs v = .ok text → ∀ k < text.length, laid (a.listxattrTo resolve fs (some size) v).2 k = text[k]? := by
  unfold XattrArg.listxattrTo XattrArg.listxattr
  cases hf : a.file resolve fs with
  | error e => exact ⟨rfl, fun _ h => by cases h⟩
  | ok i =>
    cases hx : nextListxattr fs i a.listsiz v with
    | error e =>
      simp only [bind, Except.bind, hx]
      exact ⟨rfl, fun _ h => by cases h⟩
    | ok xbuf =>
      obtain ⟨hcount, hlaid⟩ := writeLoop_listLoop (xbuf ++ [nul]) xbuf.length (xbuf.length + 1) 0 [] []
        fun k hk => absurd hk (Nat.not_lt_zero k)
      simp only [bind, Except.bind, hx]
      refine ⟨congrArg Except.ok hcount, fun text h => ?_⟩
      cases h
      exact hlaid

/-! ## The calls -/

/-- The names of the host fit in the buffer of the function and, with a list of the caller, those that are shown fit in the list, of
which the last leaves more than the prefix; or neither fits and the host says `ERANGE`. -/
def ListFits (siz : Nat) (ns : List Str) (list : Option Nat) : Prop :=
  if (terminated ns).length ≤ siz then ∀ size, list = some size → neededSize ns ≤ size ∧ ns.getLast? ≠ some xattrsPrefix
  else list.getD 0 ≠ 0 ∧ list.getD 0 < neededSize ns ∧ siz < xattrListMax

variable {resolve : XattrResolve} {fs : XattrFiles} {a : XattrArg} {i : Nat} {list : Option Nat}

theorem listxattrTo_ok (hf : a.file resolve fs = .ok i) (list : Option Nat) (h : (terminated (fs.xattrs i).keys).length ≤ a.listsiz) :
    a.listxattrTo resolve fs list none =
      (.ok (neededSize (fs.xattrs i).keys), if list.isSome then listWrites (fs.xattrs i).keys 0 else []) := by
  have hnext : nextListxattr fs i a.listsiz none = .ok (terminated (fs.xattrs i).keys) := if_pos h
  have hloop := writeLoop_eq list.isSome (fs.xattrs i).keys (fun n hn => Xattrs.valid_of_mem hn) _ 0 0 []
    (Nat.lt_succ_of_le length_le_terminated) (List.drop_zero) (Nat.zero_add _)
  unfold XattrArg.listxattrTo
  rw [hf]
  simp only [hnext]
  rw [hloop, Nat.zero_add, List.nil_append]

theorem listxattrTo_large (hf : a.file resolve fs = .ok i) (list : Option Nat) (h : ¬ (terminated (fs.xattrs i).keys).length ≤ a.listsiz) :
    a.listxattrTo resolve fs list none = (.error (if xattrListMax ≤ a.listsiz then .E2BIG else .ERANGE), []) := by
  have hnext : nextListxattr fs i a.listsiz none = .error (if xattrListMax ≤ a.listsiz then .E2BIG else .ERANGE) := if_neg h
  unfold XattrArg.listxattrTo
  rw [hf]
  simp only [hnext]

theorem not_wrote_nil (k : Nat) : ¬ Wrote [] k := by simp [Wrote]

theorem listContract_null (needed : Nat) : ListContract needed none (.ok needed, []) where
  inside k hk := absurd hk (not_wrote_nil k)
  small h := absurd rfl h
  query _ := rfl
  fits _ := rfl
  exact _ h := absurd rfl h

theorem listContract_some (hv : ∀ n ∈ ns, n ≠ []) (size : Nat) :
    ListContract (neededSize ns) (some size) (.ok (neededSize ns), listWrites ns 0) ↔
      neededSize ns ≤ size ∧ ns.getLast? ≠ some xattrsPrefix := by
  have hwrote : ∀ k, Wrote (listWrites ns 0) k ↔ k < writtenSize ns := fun k => by
    rw [wrote_listWrites hv, Nat.zero_add]
    exact and_iff_right (Nat.zero_le k)
  constructor
  · intro h
    have hinside : writtenSize ns ≤ size := by
      by_contra hlt
      exact Nat.lt_irrefl size (h.inside size ((hwrote size).mpr (Nat.lt_of_not_le hlt)))
    refine ⟨Nat.le_trans (Nat.le_add_right _ _) hinside, fun hlast => ?_⟩
    have hwritten : writtenSize ns = neededSize ns + 1 := by rw [writtenSize, if_pos hlast]
    have hsize : size ≠ 0 := by omega
    have hbyte := (h.exact _ hsize rfl (neededSize ns)).mp ((hwrote _).mpr (by omega))
    exact Nat.lt_irrefl _ hbyte
  · rintro ⟨hfits, hlast⟩
    have hwritten : writtenSize ns = neededSize ns := by rw [writtenSize, if_neg hlast, Nat.add_zero]
    rw [hwritten] at hwrote
    refine ⟨fun k hk => ?_, fun _ hlt => absurd hfits (Nat.not_le_of_lt hlt), fun _ => rfl, fun _ => rfl, fun n _ hn k => ?_⟩
    · exact Nat.lt_of_lt_of_le ((hwrote k).mp hk) hfits
    · rw [← Except.ok.inj hn]
      exact hwrote k

theorem listContract_error (needed : Nat) (list : Option Nat) (e : Errno) :
    ListContract needed list (.error e, []) ↔ list.getD 0 ≠ 0 ∧ list.getD 0 < needed ∧ e = .ERANGE := by
  constructor
  · intro h
    have hsize : list.getD 0 ≠ 0 := fun h0 => by cases h.query h0
    have hlt : list.getD 0 < needed := Nat.lt_of_not_le fun hle => by cases h.fits hle
    exact ⟨hsize, hlt, Except.error.inj (Prod.mk.inj (h.small hsize hlt)).1⟩
  · rintro ⟨hsize, hlt, rfl⟩
    exact ⟨fun k hk => absurd hk (not_wrote_nil k), fun _ _ => rfl, fun h => absurd h hsize, fun h => absurd h (Nat.not_le_of_lt hlt),
      fun n _ h => by cases h⟩

/-- A listing meets its contract when the names fit; the three of them agree on a file when its names fit in the smallest buffer. -/
theorem listxattr_contract_iff (hf : a.file resolve fs = .ok i) (list : Option Nat) :
    (ListContract (neededSize (fs.xattrs i).keys) list (a.listxattrTo resolve fs list none) ↔ ListFits a.listsiz (fs.xattrs i).keys list) ∧
    ∀ path lpath fd, (XattrArg.path path).file resolve fs = .ok i → (XattrArg.lpath lpath).file resolve fs = .ok i →
      (XattrArg.fd fd).file resolve fs = .ok i →
      ((XattrArg.path path).listxattrTo resolve fs list none = (XattrArg.lpath lpath).listxattrTo resolve fs list none ∧
          (XattrArg.lpath lpath).listxattrTo resolve fs list none = (XattrArg.fd fd).listxattrTo resolve fs list none ↔
        (terminated (fs.xattrs i).keys).length ≤ xattrNameMax) := by
  refine ⟨?_, fun path lpath fd hp hl hd => ?_⟩
  · unfold ListFits
    by_cases hraw : (terminated (fs.xattrs i).keys).length ≤ a.listsiz
    · rw [listxattrTo_ok hf list hraw, if_pos hraw]
      cases list with
      | none => exact iff_of_true (listContract_null _) fun size h => by cases h
      | some size =>
        refine (listContract_some (fun n hn => (Xattrs.valid_of_mem hn).1) size).trans ⟨fun h s hs => ?_, fun h => h size rfl⟩
        rw [← Option.some.inj hs]
        exact h
    · rw [listxattrTo_large hf list hraw, if_neg hraw, listContract_error]
      refine and_congr_right fun _ => and_congr_right fun _ => ?_
      split
      · exact iff_of_false (by decide) (by omega)
      · exact iff_of_true rfl (by omega)
  · have hmax : xattrNameMax ≤ xattrListMax := by decide
    by_cases hraw : (terminated (fs.xattrs i).keys).length ≤ xattrNameMax
    · have hraw' := Nat.le_trans hraw hmax
      rw [listxattrTo_ok hp list hraw, listxattrTo_ok hl list hraw', listxattrTo_ok hd list hraw']
      exact iff_of_true ⟨rfl, rfl⟩ hraw
    · refine iff_of_false (fun h => ?_) hraw
      have hpath : (XattrArg.path path).listxattrTo resolve fs list none = (.error .ERANGE, []) := listxattrTo_large hp list hraw
      rw [hpath] at h
      by_cases hraw' : (terminated (fs.xattrs i).keys).length ≤ xattrListMax
      · rw [listxattrTo_ok hl list hraw'] at h
        cases (Prod.mk.inj h.1).1
      · have hlpath : (XattrArg.lpath lpath).listxattrTo resolve fs list none = (.error .E2BIG, []) := listxattrTo_large hl list hraw'
        rw [hlpath] at h
        cases Except.error.inj (Prod.mk.inj h.1).1

/-- The one name of the file in a list of seven bytes. -/
theorem listxattr_contract_native : ListContract 7 (some 7) ((XattrArg.path ['f']).listxattrTo asIsXattr nativeFile (some 7) none) := by
  have hf : (XattrArg.path ['f']).file asIsXattr nativeFile = .ok 0 := rfl
  refine (listxattr_contract_iff hf (some 7)).1.mpr fun size h => ?_
  rw [← Option.some.inj h]
  decide

/-- A list of one byte gets seven. -/
theorem listxattr_overflows :
    (XattrArg.path ['f']).listxattrTo asIsXattr nativeFile (some 1) none = (.ok 7, [(0, "user.n".toList ++ [nul])]) ∧
    ¬ ListContract 7 (some 1) ((XattrArg.path ['f']).listxattrTo asIsXattr nativeFile (some 1) none) := by
  have hlist : (XattrArg.path ['f']).listxattrTo asIsXattr nativeFile (some 1) none = (.ok 7, [(0, "user.n".toList ++ [nul])]) := by decide
  refine ⟨hlist, fun h => ?_⟩
  rw [hlist] at h
  exact absurd (h.inside 1 ⟨_, List.mem_singleton_self _, by decide, by decide⟩) (by decide)

end Iamroot
