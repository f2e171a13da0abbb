import Mathlib.Data.List.Forall2
import Mathlib.Data.List.TakeWhile
import Iamroot.Basic
import Iamroot.Lib.Lines

/-!
# The user database

A line is cut at its colons in the buffer that `getline` filled, where a NUL has
taken the place of the last character. A number ends at the first character that
does not compare less than ten once `'0'` is taken off it, and a `char` is
signed: everything up to `9` and everything from 0x80 on is taken for a digit,
the NUL at the end of the line too. What lies behind the buffer is not known.
-/

namespace Iamroot

open Lines

/-! ## Fields -/

/-- What becomes of a line: an entry, nothing, or a pointer that has left the buffer. -/
inductive Parsed (α : Type) where
  | entry (a : α)
  | skip
  | overrun
  deriving DecidableEq

def isField (c : Char) : Bool := c ≠ ':' && c ≠ nul

/-- `*s++ = 0; x = s; if (!(s = strchr(s, ':'))) continue;` -/
def field {α : Type} (s : List Char) (k : Str → List Char → Parsed α) : Parsed α :=
  match s.dropWhile isField with
  | [] => .overrun
  | c :: rest => if c = ':' then k (s.takeWhile isField) rest else .skip

/-- `**s-'0'<10`, which is true of a negative `char`. -/
def isNumeral (c : Char) : Bool := c.toNat < 58 || 128 ≤ c.toNat

/-- `x=10*x+(**s-'0')`, in words of `w` bits. -/
def numeralOf (w : Nat) (s : Str) : BitVec w :=
  s.foldl (fun x c => 10 * x + ((BitVec.ofNat 8 c.toNat).signExtend w - 48#w)) 0

/-- `*s++ = 0; x = atou(&s); if (*s != ':') continue;` -/
def number {α : Type} (w : Nat) (s : List Char) (k : BitVec w → List Char → Parsed α) : Parsed α :=
  match s.dropWhile isNumeral with
  | [] => .overrun
  | c :: rest => if c = ':' then k (numeralOf w (s.takeWhile isNumeral)) rest else .skip

/-! ## The entries of a file -/

def lineBuf (line : Str) : List Char := line.dropLast ++ [nul, nul]

inductive Got (α : Type) where
  | entry (a : α) (rest : List Str)
  | eof
  | overrun

/-- The loop over the lines of `__getpwent_a` and of `__getgrent_a`. -/
def getent {α : Type} (parse : List Char → Parsed α) : List Str → Got α
  | [] => .eof
  | line :: f =>
    match parse (lineBuf line) with
    | .entry a => .entry a f
    | .skip => getent parse f
    | .overrun => .overrun

section
variable {α : Type} {parse : List Char → Parsed α} {line : Str} {f f' : List Str} {a : α}

theorem getent_entry (h : parse (lineBuf line) = .entry a) : getent parse (line :: f) = .entry a f := by
  rw [getent, h]

theorem getent_skip (h : parse (lineBuf line) = .skip) : getent parse (line :: f) = getent parse f := by
  rw [getent, h]

theorem getent_length (h : getent parse f = .entry a f') : f'.length < f.length := by
  induction f with
  | nil => cases h
  | cons line f ih =>
    unfold getent at h
    split at h
    · cases h
      exact Nat.lt_succ_self _
    · exact Nat.lt_succ_of_lt (ih h)
    · cases h

end

def findent {α : Type} (parse : List Char → Parsed α) (p : α → Bool) (f : List Str) : Got α :=
  match _h : getent parse f with
  | .entry a rest => if p a then .entry a rest else findent parse p rest
  | .eof => .eof
  | .overrun => .overrun
termination_by f.length
decreasing_by exact getent_length _h

/-- The calls of `getpwent` or `getgrent` return the entries one after the other, and then nothing. -/
inductive Enumerates {α : Type} (parse : List Char → Parsed α) : List Str → List α → Prop
  | eof {f : List Str} : getent parse f = .eof → Enumerates parse f []
  | next {f rest : List Str} {a : α} {as : List α} : getent parse f = .entry a rest → Enumerates parse rest as →
    Enumerates parse f (a :: as)

def Got.toOption {α : Type} : Got α → Option α
  | .entry a _ => some a
  | _ => none

section
variable {α : Type} {parse : List Char → Parsed α} {p : α → Bool}

theorem findent_entry {f rest : List Str} {a : α} (h : getent parse f = .entry a rest) :
    findent parse p f = if p a then .entry a rest else findent parse p rest := by
  rw [findent]
  split
  · rename_i h'
    cases h.symm.trans h'
    rfl
  · rename_i h'
    cases h.symm.trans h'
  · rename_i h'
    cases h.symm.trans h'

theorem findent_eof {f : List Str} (h : getent parse f = .eof) : findent parse p f = .eof := by
  rw [findent]
  split
  · rename_i h'
    cases h.symm.trans h'
  · rfl
  · rename_i h'
    cases h.symm.trans h'

theorem findent_overrun {f : List Str} (h : getent parse f = .overrun) : findent parse p f = .overrun := by
  rw [findent]
  split
  · rename_i h'
    cases h.symm.trans h'
  · rename_i h'
    cases h.symm.trans h'
  · rfl

theorem findent_congr {f f' : List Str} (h : getent parse f = getent parse f') : findent parse p f = findent parse p f' := by
  cases hg : getent parse f' with
  | entry a rest => rw [findent_entry hg, findent_entry (h.trans hg)]
  | eof => rw [findent_eof hg, findent_eof (h.trans hg)]
  | overrun => rw [findent_overrun hg, findent_overrun (h.trans hg)]

theorem Enumerates.congr {f f' : List Str} {as : List α} (h : getent parse f = getent parse f') (he : Enumerates parse f' as) :
    Enumerates parse f as := by
  cases he with
  | eof hg => exact .eof (h.trans hg)
  | next hg he => exact .next (h.trans hg) he

def ReadAs (parse : List Char → Parsed α) (line : Str) (a : Option α) : Prop := parse (lineBuf line) = a.elim .skip .entry

/-- In a file of entries and of lines that are skipped every entry is found, in the order of the lines. -/
theorem ents_of_lines {f : List Str} {as : List (Option α)} (h : List.Forall₂ (ReadAs parse) f as) :
    Enumerates parse f (as.filterMap id) ∧ ∀ p, findent parse p f ≠ .overrun ∧
      (findent parse p f).toOption = (as.filterMap id).find? p := by
  induction h with
  | nil =>
    refine ⟨.eof rfl, fun p => ?_⟩
    rw [findent_eof rfl]
    exact ⟨by simp, rfl⟩
  | @cons line a f as hl _ ih =>
    cases a with
    | none =>
      have hskip : getent parse (line :: f) = getent parse f := getent_skip hl
      exact ⟨ih.1.congr hskip, fun p => (findent_congr hskip) ▸ ih.2 p⟩
    | some a =>
      have hget : getent parse (line :: f) = .entry a f := getent_entry hl
      refine ⟨.next hget ih.1, fun p => ?_⟩
      have hcons : (some a :: as).filterMap id = a :: as.filterMap id := rfl
      rw [findent_entry hget, hcons, List.find?_cons]
      cases hp : p a with
      | true => exact ⟨by simp, rfl⟩
      | false => exact ih.2 p

end

/-! ## `passwd.c` -/

structure Passwd where
  name : Str
  passwd : Str
  uid : Word
  gid : Word
  gecos : Str
  dir : Str
  shell : Str
  deriving DecidableEq

/-- The body of the loop of `__getpwent_a`. The first character is not looked at: `pw->pw_name = s++;`. -/
def parsePasswd : List Char → Parsed Passwd
  | [] => .overrun
  | c :: s =>
    field s fun name s =>
      field s fun passwd s =>
        number 32 s fun uid s =>
          number 32 s fun gid s =>
            field s fun gecos s =>
              field s fun dir s =>
                .entry { name := cstr (c :: name), passwd, uid, gid, gecos, dir, shell := cstr s }

def getpwentA : List Str → Got Passwd := getent parsePasswd

def getpwnam (name : Str) (f : List Str) : Got Passwd := findent parsePasswd (fun pw => pw.name == name) f

def getpwuid (uid : Word) (f : List Str) : Got Passwd := findent parsePasswd (fun pw => pw.uid == uid) f

def putpwent (pw : Passwd) : Str :=
  pw.name ++ ':' :: (pw.passwd ++ ':' :: (Nat.toDigits 10 pw.uid.toNat ++ ':' :: (Nat.toDigits 10 pw.gid.toNat ++
    ':' :: (pw.gecos ++ ':' :: (pw.dir ++ ':' :: (pw.shell ++ [newline]))))))

/-! ## What is read back -/

section
variable {α : Type} {w : Nat} {s t : List Char}

theorem field_append {k : Str → List Char → Parsed α} (hs : ':' ∉ s) (hn : nul ∉ s) (t : List Char) :
    field (s ++ ':' :: t) k = k s t := by
  have hall : ∀ c ∈ s, isField c = true := by
    intro c hc
    have h1 : c ≠ ':' := fun h => hs (h ▸ hc)
    have h2 : c ≠ nul := fun h => hn (h ▸ hc)
    simp [isField, h1, h2]
  have hd : (s ++ ':' :: t).dropWhile isField = ':' :: t := by
    rw [List.dropWhile_append_of_pos hall]
    rfl
  have ht : (s ++ ':' :: t).takeWhile isField = s := by
    rw [List.takeWhile_append_of_pos hall]
    simp [isField]
  rw [field, hd, ht]
  rfl

theorem number_append {k : BitVec w → List Char → Parsed α} (hs : ∀ c ∈ s, isNumeral c = true) (t : List Char) :
    number w (s ++ ':' :: t) k = k (numeralOf w s) t := by
  have hd : (s ++ ':' :: t).dropWhile isNumeral = ':' :: t := by
    rw [List.dropWhile_append_of_pos hs]
    rfl
  have ht : (s ++ ':' :: t).takeWhile isNumeral = s := by
    rw [List.takeWhile_append_of_pos hs]
    have hc : isNumeral ':' = false := by decide
    simp [hc]
  rw [number, hd, ht]
  rfl

theorem digit_range {c : Char} (h : c.isDigit = true) : 48 ≤ c.toNat ∧ c.toNat ≤ 57 := by
  simpa [Char.isDigit, UInt32.le_iff_toNat_le] using h

theorem isNumeral_digit {c : Char} (h : c.isDigit = true) : isNumeral c = true := by
  have hc := digit_range h
  simp only [isNumeral, Bool.or_eq_true, decide_eq_true_eq]
  omega

theorem signExtend_digit {c : Char} (h : c.isDigit = true) :
    (BitVec.ofNat 8 c.toNat).signExtend w - 48#w = BitVec.ofNat w (c.toNat - '0'.toNat) := by
  obtain ⟨h48, h57⟩ := digit_range h
  have hmsb : (BitVec.ofNat 8 c.toNat).msb = false := by
    rw [BitVec.msb_eq_false_iff_two_mul_lt, BitVec.toNat_ofNat]
    omega
  have hwide : (BitVec.ofNat 8 c.toNat).setWidth w = BitVec.ofNat w c.toNat := by
    apply BitVec.eq_of_toNat_eq
    rw [BitVec.toNat_setWidth, BitVec.toNat_ofNat, BitVec.toNat_ofNat, Nat.mod_eq_of_lt (a := c.toNat) (by omega)]
  have hsum : BitVec.ofNat w c.toNat = BitVec.ofNat w (c.toNat - '0'.toNat) + 48#w := by
    rw [← BitVec.ofNat_add]
    have h0 : '0'.toNat = 48 := rfl
    rw [h0, Nat.sub_add_cancel h48]
  rw [BitVec.signExtend_eq_setWidth_of_msb_false hmsb, hwide, hsum, BitVec.add_sub_cancel]

theorem numeral_digits (h : ∀ c ∈ s, c.isDigit = true) : numeralOf w s = BitVec.ofNat w (Nat.ofDigitChars 10 s 0) := by
  have hfold : ∀ (n : Nat) (s : Str), (∀ c ∈ s, c.isDigit = true) →
      s.foldl (fun (x : BitVec w) c => 10 * x + ((BitVec.ofNat 8 c.toNat).signExtend w - 48#w)) (BitVec.ofNat w n) =
        BitVec.ofNat w (Nat.ofDigitChars 10 s n) := by
    intro n s hs
    induction s generalizing n with
    | nil => rw [Nat.ofDigitChars_nil]; rfl
    | cons c s ih =>
      rw [List.foldl_cons, Nat.ofDigitChars_cons, ← ih _ fun d hd => hs d (List.mem_cons_of_mem c hd),
        signExtend_digit (hs c List.mem_cons_self), BitVec.ofNat_add, BitVec.ofNat_mul]
      rfl
  exact hfold 0 s h

theorem isNumeral_toDigits {n : Nat} : ∀ c ∈ Nat.toDigits 10 n, isNumeral c = true := fun _ hc =>
  isNumeral_digit (Nat.isDigit_of_mem_toDigits (by decide) (by decide) hc)

theorem numeral_toDigits (x : BitVec w) : numeralOf w (Nat.toDigits 10 x.toNat) = x := by
  rw [numeral_digits fun _ hc => Nat.isDigit_of_mem_toDigits (by decide) (by decide) hc, Nat.ofDigitChars_ten_toDigits]
  simp

theorem cstr_of_not_mem (h : nul ∉ s) : cstr s = s := by
  unfold cstr
  rw [List.takeWhile_eq_self_iff]
  intro c hc
  simpa using fun he : c = nul => h (he ▸ hc)

theorem lineBuf_line (l : Str) : lineBuf (l ++ [newline]) = l ++ [nul, nul] := by
  rw [lineBuf, List.dropLast_concat]

end

/-! ## A file that was written -/

def dbText {α : Type} (put : α → Str) (items : List (α ⊕ Str)) : Str := (items.map (Sum.elim put (· ++ [newline]))).flatten

theorem lines_dbText {α : Type} {put : α → Str} {items : List (α ⊕ Str)}
    (h : ∀ i ∈ items, ∃ l, newline ∉ l ∧ Sum.elim put (· ++ [newline]) i = l ++ [newline]) :
    lines (dbText put items) = items.map (Sum.elim put (· ++ [newline])) := by
  unfold dbText
  induction items with
  | nil => rfl
  | cons i items ih =>
    obtain ⟨l, hl, hi⟩ := h i List.mem_cons_self
    have ih := ih fun j hj => h j (List.mem_cons_of_mem i hj)
    rw [List.map_cons, List.flatten_cons, hi, List.append_assoc, List.singleton_append, lines_line hl, ih]

theorem database_read {α : Type} (parse : List Char → Parsed α) (put : α → Str) {items : List (α ⊕ Str)}
    (hentry : ∀ a, .inl a ∈ items → ∃ l, newline ∉ l ∧ put a = l ++ [newline] ∧ parse (l ++ [nul, nul]) = .entry a)
    (hother : ∀ l, .inr l ∈ items → newline ∉ l ∧ parse (l ++ [nul, nul]) = .skip) :
    Enumerates parse (lines (dbText put items)) (items.filterMap Sum.getLeft?) ∧
      ∀ p, findent parse p (lines (dbText put items)) ≠ .overrun ∧
        (findent parse p (lines (dbText put items))).toOption = (items.filterMap Sum.getLeft?).find? p := by
  have hline : ∀ i ∈ items, ∃ l, newline ∉ l ∧ Sum.elim put (· ++ [newline]) i = l ++ [newline] ∧
      ReadAs parse (l ++ [newline]) i.getLeft? := by
    intro i hi
    cases i with
    | inl a =>
      obtain ⟨l, hl, hput, hparse⟩ := hentry a hi
      exact ⟨l, hl, hput, (congrArg parse (lineBuf_line l)).trans hparse⟩
    | inr l =>
      obtain ⟨hl, hparse⟩ := hother l hi
      exact ⟨l, hl, rfl, (congrArg parse (lineBuf_line l)).trans hparse⟩
  have hlines := lines_dbText fun i hi => (hline i hi).imp fun _ h => ⟨h.1, h.2.1⟩
  have hread : List.Forall₂ (ReadAs parse) (items.map (Sum.elim put (· ++ [newline]))) (items.map Sum.getLeft?) := by
    rw [List.forall₂_map_left_iff, List.forall₂_map_right_iff, List.forall₂_same]
    intro i hi
    obtain ⟨l, -, hi, hr⟩ := hline i hi
    rw [hi]
    exact hr
  have hall := ents_of_lines hread
  rw [List.filterMap_map, Function.id_comp, ← hlines] at hall
  exact hall

/-- The strings do not hold what separates them or ends a line. The first character of the name may be a colon. -/
structure Passwd.Ok (pw : Passwd) : Prop where
  name : pw.name ≠ [] ∧ ':' ∉ pw.name.tail
  strings : ∀ s ∈ [pw.name, pw.passwd, pw.gecos, pw.dir, pw.shell], newline ∉ s ∧ nul ∉ s
  fields : ∀ s ∈ [pw.passwd, pw.gecos, pw.dir], ':' ∉ s

theorem toDigits_clean {n : Nat} {c : Char} (hc : c.isDigit = false) : c ∉ Nat.toDigits 10 n := by
  intro h
  rw [Nat.isDigit_of_mem_toDigits (by decide) (by decide) h] at hc
  cases hc

/-- An entry is read as it was written. -/
theorem parsePasswd_putpwent {pw : Passwd} (h : pw.Ok) :
    ∃ l, newline ∉ l ∧ putpwent pw = l ++ [newline] ∧ parsePasswd (l ++ [nul, nul]) = .entry pw := by
  obtain ⟨name, passwd, uid, gid, gecos, dir, shell⟩ := pw
  obtain ⟨⟨hne, hname⟩, hstrings, hfields⟩ := h
  dsimp only at hne hname hstrings hfields
  have hnewline : newline ≠ ':' := by decide
  have hdigits : ∀ n, newline ∉ Nat.toDigits 10 n := fun n => toDigits_clean (by decide)
  refine ⟨name ++ ':' :: (passwd ++ ':' :: (Nat.toDigits 10 uid.toNat ++ ':' :: (Nat.toDigits 10 gid.toNat ++
    ':' :: (gecos ++ ':' :: (dir ++ ':' :: shell))))), ?_, ?_, ?_⟩
  · simp [hdigits, hnewline, (hstrings name (by simp)).1, (hstrings passwd (by simp)).1, (hstrings gecos (by simp)).1,
      (hstrings dir (by simp)).1, (hstrings shell (by simp)).1]
  · simp [putpwent]
  · obtain ⟨c, name, rfl⟩ := List.exists_cons_of_ne_nil hne
    have hname : ':' ∉ name := hname
    have hn := (hstrings (c :: name) (by simp)).2
    have hn' : nul ∉ name := fun h => hn (List.mem_cons_of_mem c h)
    simp only [List.cons_append, List.append_assoc]
    rw [parsePasswd, field_append hname hn', field_append (hfields passwd (by simp)) (hstrings passwd (by simp)).2,
      number_append isNumeral_toDigits, number_append isNumeral_toDigits,
      field_append (hfields gecos (by simp)) (hstrings gecos (by simp)).2,
      field_append (hfields dir (by simp)) (hstrings dir (by simp)).2, numeral_toDigits, numeral_toDigits,
      cstr_append_nul shell [nul] (hstrings shell (by simp)).2, cstr_of_not_mem hn]

def PasswdItem : Passwd ⊕ Str → Prop
  | .inl pw => pw.Ok
  | .inr l => newline ∉ l ∧ parsePasswd (l ++ [nul, nul]) = .skip

/-- The user database is read back: the entries one after the other, and the first one of a name or of an id. -/
theorem passwd_database {items : List (Passwd ⊕ Str)} (h : ∀ i ∈ items, PasswdItem i) :
    Enumerates parsePasswd (lines (dbText putpwent items)) (items.filterMap Sum.getLeft?) ∧
      (∀ name, (getpwnam name (lines (dbText putpwent items))).toOption =
        (items.filterMap Sum.getLeft?).find? fun pw => pw.name == name) ∧
      ∀ uid, (getpwuid uid (lines (dbText putpwent items))).toOption =
        (items.filterMap Sum.getLeft?).find? fun pw => pw.uid == uid := by
  obtain ⟨hall, hfind⟩ := database_read parsePasswd putpwent (fun pw hpw => parsePasswd_putpwent (h _ hpw))
    fun l hl => h _ hl
  exact ⟨hall, fun name => (hfind _).2, fun uid => (hfind _).2⟩

def rootPasswd : Passwd :=
  { name := "root".toList, passwd := "x".toList, uid := 0, gid := 0, gecos := [], dir := "/root".toList, shell := "/bin/sh".toList }

theorem passwd_database_root : Enumerates parsePasswd (lines (dbText putpwent [.inr "# users".toList, .inl rootPasswd])) [rootPasswd] ∧
    (∀ name, (getpwnam name (lines (dbText putpwent [.inr "# users".toList, .inl rootPasswd]))).toOption =
      [rootPasswd].find? fun pw => pw.name == name) ∧
    ∀ uid, (getpwuid uid (lines (dbText putpwent [.inr "# users".toList, .inl rootPasswd]))).toOption =
      [rootPasswd].find? fun pw => pw.uid == uid := by
  refine passwd_database fun i hi => ?_
  rcases List.mem_cons.mp hi with rfl | hi
  · exact ⟨by decide, by decide⟩
  · rw [List.mem_singleton] at hi
    subst hi
    exact ⟨⟨by decide, by decide⟩, by decide, by decide⟩

/-! ## Pointers that leave the buffer -/

section
variable {α : Type} {w : Nat} {x z : List Char}

theorem isField_eq {c : Char} : isField c = true ↔ c ≠ ':' ∧ c ≠ nul := by
  simp [isField]

theorem field_overrun {k : Str → List Char → Parsed α} (hx : nul ∉ x) {z' : List Char}
    (hz : z.dropWhile isField = nul :: z') : field (x ++ z) k = .overrun ↔
      ∃ f r, x = f ++ ':' :: r ∧ ':' ∉ f ∧ k f (r ++ z) = .overrun := by
  constructor
  · intro h
    by_cases hc : ':' ∈ x
    · obtain ⟨f, r, rfl, hf⟩ := List.eq_append_cons_of_mem hc
      have hn : nul ∉ f := fun h => hx (List.mem_append_left _ h)
      rw [List.append_assoc, List.cons_append, field_append hf hn] at h
      exact ⟨f, r, rfl, hf, h⟩
    · have hall : ∀ c ∈ x, isField c = true := fun c h => isField_eq.mpr ⟨fun he => hc (he ▸ h), fun he => hx (he ▸ h)⟩
      have hcolon : nul ≠ ':' := by decide
      rw [field, List.dropWhile_append_of_pos hall, hz] at h
      simp only [if_neg hcolon, reduceCtorEq] at h
  · rintro ⟨f, r, rfl, hf, h⟩
    have hn : nul ∉ f := fun h => hx (List.mem_append_left _ h)
    rw [List.append_assoc, List.cons_append, field_append hf hn]
    exact h

theorem number_overrun {k : BitVec w → List Char → Parsed α} (hz : ∀ c ∈ z, isNumeral c = true) :
    number w (x ++ z) k = .overrun ↔ (∀ c ∈ x, isNumeral c = true) ∨
      ∃ u r, x = u ++ ':' :: r ∧ (∀ c ∈ u, isNumeral c = true) ∧ k (numeralOf w u) (r ++ z) = .overrun := by
  constructor
  · intro h
    by_cases hall : ∀ c ∈ x, isNumeral c = true
    · exact .inl hall
    · right
      -- the first character that is no digit
      have hu : ∀ c ∈ x.takeWhile isNumeral, isNumeral c = true := fun c hc => List.mem_takeWhile_imp hc
      have hx : x.takeWhile isNumeral ++ x.dropWhile isNumeral = x := List.takeWhile_append_dropWhile
      cases hr : x.dropWhile isNumeral with
      | nil => exact absurd (List.dropWhile_eq_nil_iff.mp hr) hall
      | cons c r =>
        have hc : isNumeral c = false := by
          have hne : x.dropWhile isNumeral ≠ [] := by simp [hr]
          have hhead := List.head_dropWhile_not isNumeral hne
          simpa [hr] using hhead
        rw [hr] at hx
        rw [← hx, List.append_assoc, List.cons_append] at h
        by_cases he : c = ':'
        · subst he
          rw [number_append hu] at h
          exact ⟨_, r, hx.symm, hu, h⟩
        · rw [number, List.dropWhile_append_of_pos hu, List.dropWhile_cons_of_neg (by simp [hc])] at h
          simp only [if_neg he, reduceCtorEq] at h
  · rintro (hall | ⟨u, r, rfl, hu, h⟩)
    · rw [number, List.dropWhile_append_of_pos hall, List.dropWhile_eq_nil_iff.mpr hz]
    · rw [List.append_assoc, List.cons_append, number_append hu]
      exact h

end

theorem fields_end : ([nul, nul] : List Char).dropWhile isField = nul :: [nul] := by decide

theorem numerals_end : ∀ c ∈ ([nul, nul] : List Char), isNumeral c = true := by
  intro c hc
  simp only [List.mem_cons, List.not_mem_nil, or_false, or_self] at hc
  rw [hc]
  rfl

/-- The number at the end of the line, or the one at the end of the field behind it, is not ended by a colon. -/
def Unended (rest : Str) : Prop :=
  (∀ c ∈ rest, isNumeral c = true) ∨
    ∃ u r, rest = u ++ ':' :: r ∧ (∀ c ∈ u, isNumeral c = true) ∧ ∀ c ∈ r, isNumeral c = true

/-- The parser leaves its buffer on the lines that end in the uid or in the gid, and on no others. -/
theorem parsePasswd_overrun {c : Char} {l : Str} (hl : nul ∉ l) : parsePasswd (lineBuf (c :: l ++ [newline])) = .overrun ↔
    ∃ name passwd rest, l = name ++ ':' :: (passwd ++ ':' :: rest) ∧ ':' ∉ name ∧ ':' ∉ passwd ∧ Unended rest := by
  have hbuf : lineBuf (c :: l ++ [newline]) = c :: (l ++ [nul, nul]) := lineBuf_line (c :: l)
  have hsub : ∀ {u r : Str}, nul ∉ u ++ ':' :: r → nul ∉ r := fun hu hr => hu (List.mem_append_right _ (List.mem_cons_of_mem _ hr))
  rw [hbuf, parsePasswd, field_overrun hl fields_end]
  constructor
  · rintro ⟨name, r, rfl, hname, h⟩
    obtain ⟨passwd, rest, rfl, hpasswd, h⟩ := (field_overrun (hsub hl) fields_end).mp h
    refine ⟨name, passwd, rest, rfl, hname, hpasswd, ?_⟩
    rcases (number_overrun numerals_end).mp h with hall | ⟨u, r, rfl, hu, h⟩
    · exact .inl hall
    · rcases (number_overrun numerals_end).mp h with hall | ⟨v, s, rfl, hv, h⟩
      · exact .inr ⟨u, r, rfl, hu, hall⟩
      · -- behind the gid there are strings only
        have hs := hsub (hsub (hsub (hsub hl)))
        obtain ⟨gecos, s, rfl, -, h⟩ := (field_overrun hs fields_end).mp h
        obtain ⟨dir, s, rfl, -, h⟩ := (field_overrun (hsub hs) fields_end).mp h
        cases h
  · rintro ⟨name, passwd, rest, rfl, hname, hpasswd, h⟩
    refine ⟨name, _, rfl, hname, (field_overrun (hsub hl) fields_end).mpr ⟨passwd, rest, rfl, hpasswd, ?_⟩⟩
    apply (number_overrun numerals_end).mpr
    rcases h with hall | ⟨u, r, rfl, hu, hr⟩
    · exact .inl hall
    · exact .inr ⟨u, r, rfl, hu, (number_overrun numerals_end).mpr (.inl hr)⟩

end Iamroot
