import Iamroot.Groups
import Iamroot.Passwd

/-!
# The group database

The members of a group are cut at the commas of the last field, and the
character behind a comma is not looked at. `getgrouplist` goes through the whole
file and counts the groups of a user; it writes as many of them as there is room
for. `initgroups` stores them, and `getgroups` tells them.
-/

namespace Iamroot

open Lines

/-! ## `group.c` -/

structure GroupEnt where
  name : Str
  passwd : Str
  gid : Word
  mem : List Str
  deriving DecidableEq

/-- The strings at the pointers of `mem`: `if (*s==',') *s++ = 0, mem[0][++i] = s;`, and then `s++`. -/
def memScan : List Char → Option (Str × List Str)
  | [] => none
  | c :: s =>
    if c = nul then some ([], [])
    else if c = ',' then
      match s with
      | [] => none
      | d :: s => (memScan s).map fun p => ([], (if d = nul then [] else d :: p.1) :: p.2)
    else (memScan s).map fun p => (c :: p.1, p.2)

def memCount (s : List Char) : Nat := (if cstr s = [] then 0 else 1) + (cstr s).count ','

/-- The array has `*nmem+1` places, the last one for the null pointer. -/
def members {α : Type} (s : List Char) (k : List Str → Parsed α) : Parsed α :=
  if cstr s = [] then k []
  else
    match memScan s with
    | none => .overrun
    | some (m, ms) => if (m :: ms).length ≤ memCount s then k (m :: ms) else .overrun

def parseGroup : List Char → Parsed GroupEnt
  | [] => .overrun
  | c :: s =>
    field s fun name s =>
      field s fun passwd s =>
        number 32 s fun gid s =>
          members s fun mem => .entry { name := cstr (c :: name), passwd, gid, mem }

def getgrnam (name : Str) (f : List Str) : Got GroupEnt := findent parseGroup (fun gr => gr.name == name) f

def getgrgid (gid : Word) (f : List Str) : Got GroupEnt := findent parseGroup (fun gr => gr.gid == gid) f

def memText : List Str → Str
  | [] => []
  | m :: ms => m ++ ms.flatMap (',' :: ·)

def putgrent (gr : GroupEnt) : Str :=
  gr.name ++ ':' :: (gr.passwd ++ ':' :: (Nat.toDigits 10 gr.gid.toNat ++ ':' :: (memText gr.mem ++ [newline])))

/-! ## `getgrouplist` -/

/-- `while (!(rv = __getgrent_a(f, …)) && res)` -/
def foldent {α σ : Type} (parse : List Char → Parsed α) (step : σ → α → σ) (s : σ) (f : List Str) : Option σ :=
  match _h : getent parse f with
  | .entry a rest => foldent parse step (step s a) rest
  | .eof => some s
  | .overrun => none
termination_by f.length
decreasing_by exact getent_length _h

def grouplistStep (user : Str) (nlim : Int) (s : Nat × List Word) (gr : GroupEnt) : Nat × List Word :=
  if gr.mem.contains user then (s.1 + 1, if (s.1 + 1 : Nat) ≤ nlim then s.2 ++ [gr.gid] else s.2) else s

structure GroupList where
  ret : Int
  groups : List Word
  ngroups : Int
  deriving DecidableEq

/-- `none` is a pointer that has left its buffer; `file` is `/etc/group`. -/
def getgrouplist (file : Except Errno (List Str)) (user : Str) (gid : Word) (nlim : Int) : Option GroupList :=
  let groups := if 1 ≤ nlim then [gid] else []
  let done : Nat × List Word → GroupList := fun s =>
    { ret := if nlim < s.1 then -1 else s.1, groups := s.2, ngroups := Int.bmod s.1 (2 ^ 32) }
  match file with
  | .ok f => (foldent parseGroup (grouplistStep user nlim) (1, groups) f).map done
  | .error e => if e ≠ .ENOENT ∧ e ≠ .ENOTDIR then some ⟨-1, groups, nlim⟩ else some (done (1, groups))

/-- A failure without a number is that of `getgrouplist`. -/
def initgroups (bufsiz : Nat) (nomem : Option Errno) (file : Except Errno (List Str)) (user : Str) (gid : Word)
    (env : Option Str) : Option (Except (Option Errno) Unit × Option Str) :=
  (getgrouplist file user gid (ngroupsMax : Int)).map fun r : GroupList =>
    if r.ret < (0 : Int) then (.error none, env)
    else
      let (ret, env) := setgroups bufsiz nomem r.groups env
      (ret.mapError some, env)

/-! ## The members -/

/-- Only the last string behind the first one may be empty, and only the first character of such a string may be a comma. -/
def Cut (m : Str) (ms : List Str) : Prop := ',' ∉ m ∧ (∀ x ∈ ms, ',' ∉ x.tail) ∧ ∀ x ∈ ms.dropLast, x ≠ []

def Readable : List Str → Prop
  | [] => True
  | m :: ms => (m ≠ [] ∨ ms ≠ []) ∧ Cut m ms

section
variable {s m : Str} {ms : List Str} {c : Char}

theorem memScan_comma (hc : c ≠ nul) (s : List Char) :
    memScan (',' :: c :: s) = (memScan s).map fun p => ([], (c :: p.1) :: p.2) := by
  have hcomma : ',' ≠ nul := by decide
  simp only [memScan, if_neg hcomma, if_true, if_neg hc]

theorem memScan_cons (hc : c ≠ nul) (hcomma : c ≠ ',') (s : List Char) :
    memScan (c :: s) = (memScan s).map fun p => (c :: p.1, p.2) := by
  rw [memScan.eq_def]
  simp only [if_neg hc, if_neg hcomma]

theorem memScan_append (hm : ',' ∉ m) (hn : nul ∉ m) (s : List Char) :
    memScan (m ++ s) = (memScan s).map fun p => (m ++ p.1, p.2) := by
  induction m with
  | nil => simp
  | cons c m ih =>
    have hc : c ≠ ',' := fun h => hm (h ▸ List.mem_cons_self)
    have hc' : c ≠ nul := fun h => hn (h ▸ List.mem_cons_self)
    have ih := ih (fun h => hm (List.mem_cons_of_mem c h)) fun h => hn (List.mem_cons_of_mem c h)
    rw [List.cons_append, memScan_cons hc' hc, ih, Option.map_map]
    rfl

theorem memScan_text : ∀ {s : Str}, nul ∉ s →
    ∃ m ms, memScan (s ++ [nul, nul]) = some (m, ms) ∧ memText (m :: ms) = s ∧ Cut m ms
  | [], _ => ⟨[], [], rfl, rfl, by simp [Cut]⟩
  | [c], hs => by
    by_cases hc : c = ','
    · subst hc
      exact ⟨[], [[]], rfl, rfl, by simp [Cut]⟩
    · have hn : c ≠ nul := fun h => hs (h ▸ List.mem_cons_self)
      refine ⟨[c], [], ?_, rfl, by simpa [Cut] using fun h => hc h.symm⟩
      exact memScan_append (by simpa using fun h => hc h.symm) hs [nul, nul]
  | c :: d :: s, hs => by
    have hc : c ≠ nul := fun h => hs (h ▸ List.mem_cons_self)
    have hs' : nul ∉ d :: s := fun h => hs (List.mem_cons_of_mem c h)
    by_cases hcomma : c = ','
    · subst hcomma
      have hd : d ≠ nul := fun h => hs' (h ▸ List.mem_cons_self)
      obtain ⟨m, ms, hscan, htext, hm, htail, hlast⟩ := memScan_text fun h => hs' (List.mem_cons_of_mem d h)
      refine ⟨[], (d :: m) :: ms, ?_, ?_, by simp, ?_, ?_⟩
      · rw [List.cons_append, List.cons_append, memScan_comma hd, hscan]
        rfl
      · rw [← htext]
        rfl
      · intro x hx
        rcases List.mem_cons.mp hx with rfl | hx
        · exact hm
        · exact htail x hx
      · intro x hx
        cases ms with
        | nil => cases hx
        | cons y ms =>
          rcases List.mem_cons.mp hx with rfl | hx
          · exact List.cons_ne_nil d m
          · exact hlast x hx
    · obtain ⟨m, ms, hscan, htext, hm, hrest⟩ := memScan_text hs'
      refine ⟨c :: m, ms, ?_, ?_, ?_, hrest⟩
      · rw [List.cons_append, memScan_cons hc hcomma, hscan]
        rfl
      · rw [← htext]
        rfl
      · intro h
        rcases List.mem_cons.mp h with h | h
        · exact hcomma h.symm
        · exact hm h

theorem memScan_memText (h : Cut m ms) (hn : ∀ x ∈ m :: ms, nul ∉ x) :
    memScan (memText (m :: ms) ++ [nul, nul]) = some (m, ms) := by
  obtain ⟨hm, htail, hlast⟩ := h
  have hnul := hn m List.mem_cons_self
  induction ms generalizing m with
  | nil =>
    have hflat : memText [m] ++ [nul, nul] = m ++ [nul, nul] := by simp [memText]
    rw [hflat, memScan_append hm hnul]
    simp [memScan]
  | cons x ms ih =>
    have hx := hn x (by simp)
    have hflat : memText (m :: x :: ms) ++ [nul, nul] = m ++ ',' :: (x ++ ms.flatMap (',' :: ·) ++ [nul, nul]) := by simp [memText]
    rw [hflat, memScan_append hm hnul]
    cases x with
    | nil =>
      -- the last one
      cases ms with
      | nil =>
        have hcomma : ',' ≠ nul := by decide
        simp [memScan, hcomma]
      | cons y ms => exact absurd rfl (hlast [] List.mem_cons_self)
    | cons d x =>
      have hd : d ≠ nul := fun h => hx (h ▸ List.mem_cons_self)
      have hx' : nul ∉ x := fun h => hx (List.mem_cons_of_mem d h)
      have ih := @ih x ?_ ?_ ?_ ?_ ?_
      · have hfold : (d :: x ++ ms.flatMap (',' :: ·) ++ [nul, nul]) = d :: (memText (x :: ms) ++ [nul, nul]) := rfl
        rw [hfold, memScan_comma hd, ih]
        simp
      · intro y hy
        rcases List.mem_cons.mp hy with rfl | hy
        · exact hx'
        · exact hn y (by simp [hy])
      · exact htail (d :: x) List.mem_cons_self
      · exact fun y hy => htail y (List.mem_cons_of_mem _ hy)
      · intro y hy
        cases ms with
        | nil => cases hy
        | cons z ms => exact hlast y (List.mem_cons_of_mem _ hy)
      · exact hx'

theorem length_le_count : ms.length ≤ (memText (m :: ms)).count ',' := by
  have hflat : ms.length ≤ (ms.flatMap (',' :: ·)).count ',' := by
    induction ms with
    | nil => exact Nat.zero_le _
    | cons x ms ih =>
      rw [List.flatMap_cons, List.count_append, List.length_cons, List.count_cons_self]
      omega
  rw [memText, List.count_append]
  omega

variable {α : Type} {mem : List Str}

/-- The array is long enough for what is cut. -/
theorem members_scan (hs : nul ∉ memText (m :: ms)) (hne : memText (m :: ms) ≠ [])
    (hscan : memScan (memText (m :: ms) ++ [nul, nul]) = some (m, ms)) (k : List Str → Parsed α) :
    members (memText (m :: ms) ++ [nul, nul]) k = k (m :: ms) := by
  have hcstr : cstr (memText (m :: ms) ++ [nul, nul]) = memText (m :: ms) := cstr_append_nul _ [nul] hs
  have hcount : (m :: ms).length ≤ memCount (memText (m :: ms) ++ [nul, nul]) := by
    have hle := @length_le_count m ms
    rw [memCount, hcstr, if_neg hne, List.length_cons]
    omega
  rw [members, hcstr, if_neg hne, hscan]
  simp only [if_pos hcount]

theorem memText_ne_nil : memText (m :: ms) ≠ [] ↔ m ≠ [] ∨ ms ≠ [] := by
  cases ms with
  | nil => simp [memText]
  | cons x ms => simp [memText]

theorem not_mem_memText (hc : c ≠ ',') (hn : ∀ x ∈ mem, c ∉ x) : c ∉ memText mem := by
  cases mem with
  | nil => simp [memText]
  | cons m ms =>
    simp only [memText, List.mem_append, List.mem_flatMap, List.mem_cons, hc, false_or, not_or, not_exists, not_and]
    exact ⟨hn m List.mem_cons_self, fun x hx => hn x (List.mem_cons_of_mem m hx)⟩

theorem members_text (hs : nul ∉ s) : ∃ mem, (∀ k : List Str → Parsed α, members (s ++ [nul, nul]) k = k mem) ∧
    memText mem = s ∧ Readable mem := by
  by_cases he : s = []
  · subst he
    exact ⟨[], fun k => rfl, rfl, trivial⟩
  · obtain ⟨m, ms, hscan, rfl, hcut⟩ := memScan_text hs
    exact ⟨m :: ms, members_scan hs he hscan, rfl, memText_ne_nil.mp he, hcut⟩

/-- Members that can be written are read back. -/
theorem members_memText (h : Readable mem) (hn : ∀ x ∈ mem, nul ∉ x) (k : List Str → Parsed α) :
    members (memText mem ++ [nul, nul]) k = k mem := by
  cases mem with
  | nil => rfl
  | cons m ms => exact members_scan (not_mem_memText (by decide) hn) (memText_ne_nil.mpr h.1) (memScan_memText h.2 hn) k

end

/-! ## What is read back -/

/-- The strings do not hold what separates them or ends a line. -/
structure GroupEnt.Ok (gr : GroupEnt) : Prop where
  name : gr.name ≠ [] ∧ ':' ∉ gr.name.tail
  passwd : ':' ∉ gr.passwd
  strings : ∀ s ∈ gr.name :: gr.passwd :: gr.mem, newline ∉ s ∧ nul ∉ s

section
variable {gr : GroupEnt}

def GroupEnt.line (gr : GroupEnt) : Str :=
  gr.name ++ ':' :: (gr.passwd ++ ':' :: (Nat.toDigits 10 gr.gid.toNat ++ ':' :: memText gr.mem))

theorem putgrent_line : putgrent gr = gr.line ++ [newline] := by
  simp [putgrent, GroupEnt.line]

theorem newline_not_mem_line (h : gr.Ok) : newline ∉ gr.line := by
  have hcolon : newline ≠ ':' := by decide
  have hdigits : newline ∉ Nat.toDigits 10 gr.gid.toNat := toDigits_clean (by decide)
  have hmem : newline ∉ memText gr.mem := not_mem_memText (by decide) fun x hx => (h.strings x (by simp [hx])).1
  simp [GroupEnt.line, hcolon, hdigits, hmem, (h.strings gr.name (by simp)).1, (h.strings gr.passwd (by simp)).1]

theorem parseGroup_line (h : gr.Ok) : parseGroup (gr.line ++ [nul, nul]) =
    members (memText gr.mem ++ [nul, nul]) fun mem => .entry { gr with mem } := by
  obtain ⟨name, passwd, gid, mem⟩ := gr
  obtain ⟨⟨hne, hname⟩, hpasswd, hstrings⟩ := h
  dsimp only at hne hname hpasswd hstrings ⊢
  obtain ⟨c, name, rfl⟩ := List.exists_cons_of_ne_nil hne
  have hname : ':' ∉ name := hname
  have hn := (hstrings (c :: name) (by simp)).2
  have hn' : nul ∉ name := fun h => hn (List.mem_cons_of_mem c h)
  simp only [GroupEnt.line, List.cons_append, List.append_assoc]
  rw [parseGroup, field_append hname hn', field_append hpasswd (hstrings passwd (by simp)).2,
    number_append isNumeral_toDigits, numeral_toDigits, cstr_of_not_mem hn]

/-- What is read of a line that was written is written as the same line, and is the entry that was written just in
case its members can be read back. -/
theorem parseGroup_putgrent (h : gr.Ok) : ∃ mem, parseGroup (lineBuf (putgrent gr)) = .entry { gr with mem } ∧
    putgrent { gr with mem } = putgrent gr ∧ Readable mem ∧ (mem = gr.mem ↔ Readable gr.mem) := by
  have hn : ∀ x ∈ gr.mem, nul ∉ x := fun x hx => (h.strings x (by simp [hx])).2
  obtain ⟨mem, hmem, htext, hread⟩ := @members_text _ GroupEnt (not_mem_memText (by decide) hn)
  refine ⟨mem, ?_, ?_, hread, ?_⟩
  · rw [putgrent_line, lineBuf_line, parseGroup_line h, hmem]
  · rw [putgrent, putgrent, htext]
  · constructor
    · rintro rfl
      exact hread
    · intro hgr
      have hboth := (hmem fun mem => .entry { gr with mem }).symm.trans (members_memText hgr hn _)
      simpa using hboth

end

def wheel : GroupEnt :=
  { name := "wheel".toList, passwd := "x".toList, gid := 10, mem := ["root".toList, "user".toList] }

theorem wheel_ok : wheel.Ok := ⟨by decide, by decide, by decide⟩

theorem parseGroup_putgrent_wheel : ∃ mem, parseGroup (lineBuf (putgrent wheel)) = .entry { wheel with mem } ∧
    putgrent { wheel with mem } = putgrent wheel ∧ Readable mem ∧ (mem = wheel.mem ↔ Readable wheel.mem) :=
  parseGroup_putgrent wheel_ok

def GroupItem : GroupEnt ⊕ Str → Prop
  | .inl gr => gr.Ok ∧ Readable gr.mem
  | .inr l => newline ∉ l ∧ parseGroup (l ++ [nul, nul]) = .skip

theorem group_entry {gr : GroupEnt} (h : GroupItem (.inl gr)) : ∃ l, newline ∉ l ∧ putgrent gr = l ++ [newline] ∧
    parseGroup (l ++ [nul, nul]) = .entry gr := by
  obtain ⟨hok, hread⟩ := h
  have hn : ∀ x ∈ gr.mem, nul ∉ x := fun x hx => (hok.strings x (by simp [hx])).2
  refine ⟨gr.line, newline_not_mem_line hok, putgrent_line, ?_⟩
  rw [parseGroup_line hok, members_memText hread hn]

theorem group_enumerates {items : List (GroupEnt ⊕ Str)} (h : ∀ i ∈ items, GroupItem i) :
    Enumerates parseGroup (lines (dbText putgrent items)) (items.filterMap Sum.getLeft?) :=
  (database_read parseGroup putgrent (fun _ hgr => group_entry (h _ hgr)) fun _ hl => h _ hl).1

/-- The group database is read back: the entries one after the other, and the first one of a name or of an id. -/
theorem group_database {items : List (GroupEnt ⊕ Str)} (h : ∀ i ∈ items, GroupItem i) :
    Enumerates parseGroup (lines (dbText putgrent items)) (items.filterMap Sum.getLeft?) ∧
      (∀ name, (getgrnam name (lines (dbText putgrent items))).toOption =
        (items.filterMap Sum.getLeft?).find? fun gr => gr.name == name) ∧
      ∀ gid, (getgrgid gid (lines (dbText putgrent items))).toOption =
        (items.filterMap Sum.getLeft?).find? fun gr => gr.gid == gid := by
  obtain ⟨hall, hfind⟩ := database_read parseGroup putgrent (fun _ hgr => group_entry (h _ hgr)) fun l hl => h _ hl
  exact ⟨hall, fun name => (hfind _).2, fun gid => (hfind _).2⟩

/-! ## The groups of a user -/

section
variable {α σ : Type} {parse : List Char → Parsed α} {step : σ → α → σ} {f : List Str}

theorem foldent_entry {rest : List Str} {a : α} (h : getent parse f = .entry a rest) (s : σ) :
    foldent parse step s f = foldent parse step (step s a) rest := by
  rw [foldent]
  split
  · rename_i h'
    cases h.symm.trans h'
    rfl
  · rename_i h'
    cases h.symm.trans h'
  · rename_i h'
    cases h.symm.trans h'

theorem foldent_eof (h : getent parse f = .eof) (s : σ) : foldent parse step s f = some s := by
  rw [foldent]
  split
  · rename_i h'
    cases h.symm.trans h'
  · rfl
  · rename_i h'
    cases h.symm.trans h'

theorem foldent_enumerates {as : List α} (h : Enumerates parse f as) (s : σ) : foldent parse step s f = some (as.foldl step s) := by
  induction h generalizing s with
  | eof hget => exact foldent_eof hget s
  | next hget _ ih => rw [foldent_entry hget, ih, List.foldl_cons]

end

def groupsOf (user : Str) (grs : List GroupEnt) : List Word := (grs.filter (·.mem.contains user)).map (·.gid)

section
variable {user : Str} {gid : Word} {nlim : Int} {f : List Str} {grs : List GroupEnt}

theorem groupsOf_cons (gr : GroupEnt) : groupsOf user (gr :: grs) =
    if gr.mem.contains user then gr.gid :: groupsOf user grs else groupsOf user grs := by
  unfold groupsOf
  rw [List.filter_cons]
  split <;> rfl

theorem grouplist_fold (n : Nat) (groups : List Word) :
    grs.foldl (grouplistStep user nlim) (n, groups) =
      (n + (groupsOf user grs).length, groups ++ (groupsOf user grs).take (nlim - n).toNat) := by
  induction grs generalizing n groups with
  | nil => simp [groupsOf]
  | cons gr grs ih =>
    rw [List.foldl_cons, grouplistStep, groupsOf_cons]
    by_cases hm : gr.mem.contains user
    · rw [if_pos hm, if_pos hm, ih, List.length_cons]
      refine Prod.ext (by dsimp only; omega) ?_
      by_cases hle : ((n + 1 : Nat) : Int) ≤ nlim
      · have hroom : (nlim - n).toNat = (nlim - (n + 1 : Nat)).toNat + 1 := by omega
        simp only [if_pos hle, hroom, List.take_succ_cons, List.append_assoc, List.singleton_append]
      · have hfull : (nlim - n).toNat = 0 := by omega
        have hfull' : (nlim - (n + 1 : Nat)).toNat = 0 := by omega
        simp only [if_neg hle, hfull, hfull', List.take_zero]
    · rw [if_neg hm, if_neg hm, ih]

/-- All the groups of the user are counted, the first of them are written, as many as there is room for, and the call
fails when that is not all of them. -/
theorem getgrouplist_of (h : Enumerates parseGroup f grs) : getgrouplist (.ok f) user gid nlim =
    some { ret := if nlim < (gid :: groupsOf user grs).length then -1 else (gid :: groupsOf user grs).length
           groups := (gid :: groupsOf user grs).take nlim.toNat
           ngroups := Int.bmod (gid :: groupsOf user grs).length (2 ^ 32) } := by
  have hn : 1 + (groupsOf user grs).length = (gid :: groupsOf user grs).length := by rw [List.length_cons]; omega
  have htake : (if 1 ≤ nlim then [gid] else []) ++ (groupsOf user grs).take (nlim - (1 : Nat)).toNat =
      (gid :: groupsOf user grs).take nlim.toNat := by
    by_cases hpos : 1 ≤ nlim
    · have hroom : nlim.toNat = (nlim - (1 : Nat)).toNat + 1 := by omega
      rw [if_pos hpos, hroom, List.take_succ_cons, List.singleton_append]
    · have hfull : (nlim - (1 : Nat)).toNat = 0 := by omega
      have hfull' : nlim.toNat = 0 := by omega
      rw [if_neg hpos, hfull, hfull', List.take_zero, List.nil_append, List.take_zero]
  unfold getgrouplist
  dsimp only
  rw [foldent_enumerates h, grouplist_fold, hn, htake]
  rfl

end

/-- Of a group database, the groups of a user are the one that is passed and those of the entries that name the user, in
the order of the file; a call without room tells how many there are, and a call with room for them tells them all. -/
theorem getgrouplist_database {items : List (GroupEnt ⊕ Str)} (h : ∀ i ∈ items, GroupItem i) (user : Str) (gid : Word)
    (nlim : Int) :
    getgrouplist (.ok (lines (dbText putgrent items))) user gid nlim =
      let all := gid :: groupsOf user (items.filterMap Sum.getLeft?)
      some
        { ret := if nlim < all.length then -1 else all.length
          groups := all.take nlim.toNat
          ngroups := Int.bmod all.length (2 ^ 32) } :=
  getgrouplist_of (group_enumerates h)

theorem wheel_item : ∀ i ∈ [.inr "# groups".toList, .inl wheel], GroupItem i := by
  intro i hi
  rcases List.mem_cons.mp hi with rfl | hi
  · exact ⟨by decide, by decide⟩
  · rw [List.mem_singleton] at hi
    subst hi
    exact ⟨wheel_ok, by simp [Readable, Cut, wheel]⟩

theorem getgrouplist_database_wheel :
    getgrouplist (.ok (lines (dbText putgrent [.inr "# groups".toList, .inl wheel]))) "user".toList 100 1 =
      some { ret := -1, groups := [100], ngroups := 2 } :=
  (getgrouplist_database wheel_item "user".toList 100 1).trans (by decide)

section
variable {bufsiz : Nat} {nomem : Option Errno} {user : Str} {gid : Word} {f : List Str} {grs : List GroupEnt} {env : Option Str}

theorem initgroups_of (h : Enumerates parseGroup f grs) : initgroups bufsiz nomem (.ok f) user gid env =
    some (if ngroupsMax < (gid :: groupsOf user grs).length then (.error none, env)
      else ((setgroups bufsiz nomem (gid :: groupsOf user grs) env).1.mapError some,
        (setgroups bufsiz nomem (gid :: groupsOf user grs) env).2)) := by
  unfold initgroups
  rw [getgrouplist_of h, Option.map_some]
  dsimp only
  generalize gid :: groupsOf user grs = list
  by_cases hmax : ngroupsMax < list.length
  · have hlt : (ngroupsMax : Int) < list.length := by omega
    rw [if_pos hmax, if_pos hlt, if_pos (by decide)]
  · have hlt : ¬ (ngroupsMax : Int) < list.length := by omega
    have htake : list.take (ngroupsMax : Int).toNat = list := List.take_of_length_le (by omega)
    rw [if_neg hmax, if_neg hlt, if_neg (by omega), htake]

end

/-- After `initgroups`, `getgroups` tells the groups of the user; without room for them nothing has changed. -/
theorem initgroups_reads_back (bufsiz : Nat) (nomem : Option Errno) (user : Str) (gid : Word) (env : Option Str) {f : List Str}
    {grs : List GroupEnt} (h : Enumerates parseGroup f grs) :
    (Storable bufsiz (gid :: groupsOf user grs) → nomem = none →
      ∃ env', initgroups bufsiz nomem (.ok f) user gid env = some (.ok (), env') ∧
        ((groupsText (gid :: groupsOf user grs)).length ≤ pathMax → ReadsBack (gid :: groupsOf user grs) env')) ∧
    (¬ (Storable bufsiz (gid :: groupsOf user grs) ∧ nomem = none) →
      ∃ e, initgroups bufsiz nomem (.ok f) user gid env = some (.error e, env)) := by
  have hne := List.cons_ne_nil gid (groupsOf user grs)
  rw [initgroups_of h, setgroups_stores env hne]
  constructor
  · rintro ⟨hmax, hroom⟩ rfl
    rw [if_neg (Nat.not_lt.mpr hmax), if_neg (Nat.not_lt.mpr hmax), if_pos hroom]
    exact ⟨_, rfl, fun hlen => readsBack_of_tokens (groupTokens_groupsText hne hlen)⟩
  · intro hroom
    by_cases hmax : ngroupsMax < (gid :: groupsOf user grs).length
    · rw [if_pos hmax]
      exact ⟨none, rfl⟩
    · rw [if_neg hmax, if_neg hmax]
      by_cases hfits : (groupsText (gid :: groupsOf user grs)).length < bufsiz
      · rw [if_pos hfits]
        cases nomem with
        | some e => exact ⟨some e, rfl⟩
        | none => exact absurd ⟨⟨Nat.not_lt.mp hmax, hfits⟩, rfl⟩ hroom
      · rw [if_neg hfits]
        exact ⟨some .ENOSPC, rfl⟩

theorem initgroups_reads_back_wheel :
    (∃ env', initgroups 8192 none (.ok (lines (dbText putgrent [.inr "# groups".toList, .inl wheel]))) "user".toList 100 none =
        some (.ok (), env') ∧ ReadsBack [100, 10] env') ∧
    ∃ e, initgroups 4 none (.ok (lines (dbText putgrent [.inr "# groups".toList, .inl wheel]))) "user".toList 100 none =
      some (.error e, none) := by
  have hof : (100 : Word) :: groupsOf "user".toList [wheel] = [100, 10] := by decide
  have hall : Enumerates parseGroup (lines (dbText putgrent [.inr "# groups".toList, .inl wheel])) [wheel] := group_enumerates wheel_item
  have hstores := (initgroups_reads_back 8192 none "user".toList 100 none hall).1
  have hfails := (initgroups_reads_back 4 none "user".toList 100 none hall).2
  rw [hof] at hstores hfails
  obtain ⟨env', hinit, hread⟩ := hstores ⟨by decide, by decide⟩ rfl
  exact ⟨⟨env', hinit, hread (by decide)⟩, hfails fun h => absurd h.1.2 (by decide)⟩

/-! ## Pointers that leave the buffer -/

/-- The parsers leave their buffer on the lines that end within a number, and on no others. -/
theorem database_overrun {c : Char} {l : Str} (hl : nul ∉ l) :
    (parsePasswd (lineBuf (c :: l ++ [newline])) = .overrun ↔
      ∃ name passwd rest, l = name ++ ':' :: (passwd ++ ':' :: rest) ∧ ':' ∉ name ∧ ':' ∉ passwd ∧ Unended rest) ∧
    (parseGroup (lineBuf (c :: l ++ [newline])) = .overrun ↔
      ∃ name passwd rest, l = name ++ ':' :: (passwd ++ ':' :: rest) ∧ ':' ∉ name ∧ ':' ∉ passwd ∧
        ∀ c ∈ rest, isNumeral c = true) := by
  refine ⟨parsePasswd_overrun hl, ?_⟩
  have hsub : ∀ {u r : Str}, nul ∉ u ++ ':' :: r → nul ∉ r := fun hu hr => hu (List.mem_append_right _ (List.mem_cons_of_mem _ hr))
  have hbuf : lineBuf (c :: l ++ [newline]) = c :: (l ++ [nul, nul]) := lineBuf_line (c :: l)
  rw [hbuf, parseGroup, field_overrun hl fields_end]
  constructor
  · rintro ⟨name, r, rfl, hname, h⟩
    obtain ⟨passwd, rest, rfl, hpasswd, h⟩ := (field_overrun (hsub hl) fields_end).mp h
    refine ⟨name, passwd, rest, rfl, hname, hpasswd, ?_⟩
    rcases (number_overrun numerals_end).mp h with hall | ⟨u, r, rfl, hu, h⟩
    · exact hall
    · -- every field is cut into members
      obtain ⟨mem, hmem, -⟩ := @members_text _ GroupEnt (hsub (hsub (hsub hl)))
      rw [hmem] at h
      cases h
  · rintro ⟨name, passwd, rest, rfl, hname, hpasswd, h⟩
    exact ⟨name, _, rfl, hname, (field_overrun (hsub hl) fields_end).mpr
      ⟨passwd, rest, rfl, hpasswd, (number_overrun numerals_end).mpr (.inl h)⟩⟩

theorem database_overrun_short : parsePasswd (lineBuf ('a' :: ":x:1".toList ++ [newline])) = .overrun ∧
    parseGroup (lineBuf ('a' :: ":x:1".toList ++ [newline])) = .overrun := by
  have hone : ∀ c ∈ ['1'], isNumeral c = true := by
    intro c hc
    rw [List.mem_singleton.mp hc]
    rfl
  obtain ⟨hpasswd, hgroup⟩ := @database_overrun 'a' ":x:1".toList (by decide)
  exact ⟨hpasswd.mpr ⟨[], ['x'], ['1'], rfl, by decide, by decide, .inl hone⟩,
    hgroup.mpr ⟨[], ['x'], ['1'], rfl, by decide, by decide, hone⟩⟩

end Iamroot
