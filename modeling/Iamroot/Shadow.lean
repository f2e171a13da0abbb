import Iamroot.Passwd

/-!
# The shadow database

`getspnam_r` has no more memory than the buffer of its caller: a line that does
not fit is read in pieces, and `skip` tells that a piece does not begin a line.
The numbers of an entry may be empty, which stands for -1, and the last one has
to be: no digits in front of the newline end there.
-/

namespace Iamroot

open Lines

/-! ## Entries -/

structure Spwd where
  namp : Str
  pwdp : Str
  lstchg : BitVec 64
  min : BitVec 64
  max : BitVec 64
  warn : BitVec 64
  inact : BitVec 64
  expire : BitVec 64
  flag : BitVec 64
  deriving DecidableEq

/-- `s++; x = xatol(&s); if (*s != stop) return -1;` -/
def longNumber {α : Type} (stop : Char) (s : List Char) (k : BitVec 64 → List Char → Parsed α) : Parsed α :=
  match s with
  | [] => .overrun
  | c :: rest =>
    if c = ':' ∨ c = newline then
      if c = stop then k (-1) rest else .skip
    else
      match s.dropWhile isNumeral with
      | [] => .overrun
      | d :: rest => if d = stop then k (numeralOf 64 (s.takeWhile isNumeral)) rest else .skip

def parsespent (s : List Char) : Parsed Spwd :=
  field s fun namp s =>
    field s fun pwdp s =>
      longNumber ':' s fun lstchg s =>
        longNumber ':' s fun min s =>
          longNumber ':' s fun max s =>
            longNumber ':' s fun warn s =>
              longNumber ':' s fun inact s =>
                longNumber ':' s fun expire s =>
                  longNumber newline s fun flag _ =>
                    .entry { namp, pwdp, lstchg, min, max, warn, inact, expire, flag }

def longText (n : BitVec 64) : Str :=
  if n = -1 then []
  else if n.toInt < 0 then '-' :: Nat.toDigits 10 n.toInt.natAbs
  else Nat.toDigits 10 n.toNat

def ulongText (n : BitVec 64) : Str := if n = -1 then [] else Nat.toDigits 10 n.toNat

def putspent (sp : Spwd) : Str :=
  sp.namp ++ ':' :: (sp.pwdp ++ ':' :: (longText sp.lstchg ++ ':' :: (longText sp.min ++ ':' :: (longText sp.max ++
    ':' :: (longText sp.warn ++ ':' :: (longText sp.inact ++ ':' :: (longText sp.expire ++
      ':' :: (ulongText sp.flag ++ [newline]))))))))

/-- `fgetspent`: a line that is no entry is read too, and gives nothing. -/
def fgetspent : List Str → Parsed Spwd × List Str
  | [] => (.skip, [])
  | line :: f => (parsespent (line ++ [nul]), f)

/-! ## `getspnam_r` -/

/-- What the call returns and stores: an entry, none, an error, or a pointer that has left the buffer. -/
inductive GotSpwd where
  | entry (sp : Spwd)
  | none
  | error (e : Errno)
  | overrun
  deriving DecidableEq

theorem chunk_rest_length {n : Nat} {s : List Char} (hs : s ≠ []) (hn : n ≠ 0) : (chunk n s).2.length < s.length := by
  obtain ⟨n, rfl⟩ := Nat.exists_eq_succ_of_ne_zero hn
  exact chunk_rest_lt n hs

/-- `while (fgets(buf, size, f) && (k=strlen(buf))>0)`, where `n` is `size - 1`. -/
def spnamLoop (name : Str) (n : Nat) (skip : Bool) (s : Str) : GotSpwd :=
  if _h : s ≠ [] ∧ n ≠ 0 then
    let buf := cstr (chunk n s).1
    let rest := (chunk n s).2
    if buf = [] then .none
    else if skip || !(name ++ [':']).isPrefixOf buf then
      spnamLoop name n (decide (buf.getLast? ≠ some newline)) rest
    else if buf.getLast? ≠ some newline then .error .ERANGE
    else
      match parsespent ((chunk n s).1 ++ [nul]) with
      | .entry sp => .entry sp
      | .skip => spnamLoop name n skip rest
      | .overrun => .overrun
  else .none
termination_by s.length
decreasing_by
  · exact chunk_rest_length _h.1 _h.2
  · exact chunk_rest_length _h.1 _h.2

structure Opened where
  regular : Bool
  text : Str

/-- The file that is read: that of the user, or else that of all users, or none. -/
def openShadow (open_ : Str → Except Errno Opened) (name : Str) : Except Errno (Option Str) :=
  match open_ ("/etc/tcb/".toList ++ name ++ "/shadow".toList) with
  | .ok f => if f.regular then .ok (some f.text) else .error .EINVAL
  | .error e =>
    if e ≠ .ENOENT ∧ e ≠ .ENOTDIR then .error e
    else
      match open_ "/etc/shadow".toList with
      | .ok f => .ok (some f.text)
      | .error e => if e ≠ .ENOENT ∧ e ≠ .ENOTDIR then .error e else .ok none

def getspnamR (open_ : Str → Except Errno Opened) (name : Str) (size : Nat) : GotSpwd :=
  if name.head? = some '.' ∨ name.contains '/' ∨ name = [] then .error .EINVAL
  else if size < name.length + 100 then .error .ERANGE
  else if 20 + nameMax ≤ ("/etc/tcb/".toList ++ name ++ "/shadow".toList).length then .error .EINVAL
  else
    match openShadow open_ name with
    | .error e => .error e
    | .ok none => .none
    | .ok (some text) => spnamLoop name (size - 1) false text

/-! ## The pieces of a file are its lines -/

/-- What is found in the lines: the first one of the user that is read as an entry; an error, when a line of the user
comes before it that does not fit, or has no end. -/
def spnamLines (name : Str) (n : Nat) : List Str → GotSpwd
  | [] => .none
  | line :: ls =>
    if (name ++ [':']).isPrefixOf line then
      if line.getLast? = some newline ∧ line.length ≤ n then
        match parsespent (line ++ [nul]) with
        | .entry sp => .entry sp
        | .skip => spnamLines name n ls
        | .overrun => .overrun
      else .error .ERANGE
    else spnamLines name n ls

section
variable {name l s t : Str} {n : Nat} {skip : Bool}

theorem spnamLoop_nil : spnamLoop name n skip [] = .none := by
  rw [spnamLoop, dif_neg fun h => h.1 rfl]

theorem spnamLoop_turn (hs : s ≠ []) (hn : n ≠ 0) (hz : nul ∉ s) {b : Str} (hc : chunk n s = (b, t)) :
    spnamLoop name n skip s =
      if skip || !(name ++ [':']).isPrefixOf b then spnamLoop name n (decide (b.getLast? ≠ some newline)) t
      else if b.getLast? ≠ some newline then .error .ERANGE
      else
        match parsespent (b ++ [nul]) with
        | .entry sp => .entry sp
        | .skip => spnamLoop name n skip t
        | .overrun => .overrun := by
  have happ : b ++ t = s := by
    have h := chunk_append n s
    rw [hc] at h
    exact h
  have hb : b ≠ [] := by
    rintro rfl
    have hlt := chunk_rest_length hs hn
    rw [hc, ← happ] at hlt
    exact Nat.lt_irrefl _ hlt
  have hcstr : cstr b = b := cstr_of_not_mem fun h => hz (happ ▸ List.mem_append_left t h)
  rw [spnamLoop, dif_pos ⟨hs, hn⟩]
  simp only [hc, hcstr, if_neg hb]

theorem getLast_ne_newline (hl : newline ∉ l) : l.getLast? ≠ some newline := fun h => hl (List.mem_of_getLast? h)

theorem nul_not_mem_drop (hz : nul ∉ l ++ t) : nul ∉ l.drop n ++ t := by
  intro h
  refine hz ?_
  rw [← List.take_append_drop n l, List.append_assoc]
  exact List.mem_append_right _ h

theorem spnamLoop_skip (hn : n ≠ 0) (hl : newline ∉ l) (hz : nul ∉ l ++ newline :: t) :
    spnamLoop name n true (l ++ newline :: t) = spnamLoop name n false t := by
  induction hlen : l.length using Nat.strong_induction_on generalizing l with
  | _ k ih =>
    by_cases hfits : l.length < n
    · rw [spnamLoop_turn (by simp) hn hz (chunk_fits hl hfits t)]
      simp
    · have hlong := chunk_long hl (Nat.le_of_not_lt hfits) (newline :: t)
      have htake : newline ∉ l.take n := fun h => hl (List.mem_of_mem_take h)
      have hdrop : newline ∉ l.drop n := fun h => hl (List.mem_of_mem_drop h)
      have hlt : (l.drop n).length < k := by
        rw [List.length_drop, ← hlen]
        omega
      rw [spnamLoop_turn (by simp) hn hz hlong]
      simp only [Bool.true_or, if_true, decide_eq_true (getLast_ne_newline htake)]
      exact ih _ hlt hdrop (nul_not_mem_drop hz) rfl

theorem spnamLoop_skip_end (hn : n ≠ 0) (hl : newline ∉ l) (hz : nul ∉ l) : spnamLoop name n true l = .none := by
  induction hlen : l.length using Nat.strong_induction_on generalizing l with
  | _ k ih =>
    by_cases hne : l = []
    · rw [hne, spnamLoop_nil]
    · by_cases hfits : l.length ≤ n
      · rw [spnamLoop_turn hne hn hz (chunk_end hl hfits)]
        simp [spnamLoop_nil]
      · have hlong := chunk_long hl (Nat.le_of_not_le hfits) []
        rw [List.append_nil, List.append_nil] at hlong
        have htake : newline ∉ l.take n := fun h => hl (List.mem_of_mem_take h)
        have hlt : (l.drop n).length < k := by
          rw [List.length_drop, ← hlen]
          omega
        rw [spnamLoop_turn hne hn hz hlong]
        simp only [Bool.true_or, if_true, decide_eq_true (getLast_ne_newline htake)]
        exact ih _ hlt (fun h => hl (List.mem_of_mem_drop h)) (fun h => hz (List.mem_of_mem_drop h)) rfl

theorem isPrefixOf_take (hn : name.length < n) (l : Str) : (name ++ [':']).isPrefixOf (l.take n) = (name ++ [':']).isPrefixOf l := by
  rw [Bool.eq_iff_iff, List.isPrefixOf_iff_prefix, List.isPrefixOf_iff_prefix, List.prefix_take_iff]
  simp only [List.length_append, List.length_singleton, and_iff_left_iff_imp]
  omega

/-- What is found in pieces is what is found line by line. -/
theorem spnamLoop_lines (hn : name.length < n) (hz : nul ∉ s) : spnamLoop name n false s = spnamLines name n (lines s) := by
  have hn0 : n ≠ 0 := by omega
  induction hlen : s.length using Nat.strong_induction_on generalizing s with
  | _ k ih =>
    rcases cases_lines s with rfl | ⟨hne, hl⟩ | ⟨l, t, hl, rfl⟩
    · exact spnamLoop_nil
    · -- the last line has no end
      have hend : ¬ (s.getLast? = some newline ∧ s.length ≤ n) := fun h => getLast_ne_newline hl h.1
      rw [lines_last hne hl, spnamLines, spnamLines, if_neg hend]
      by_cases hfits : s.length ≤ n
      · rw [spnamLoop_turn hne hn0 hz (chunk_end hl hfits), spnamLoop_nil]
        cases (name ++ [':']).isPrefixOf s with
        | true => exact if_pos (getLast_ne_newline hl)
        | false => rfl
      · have hlong := chunk_long hl (Nat.le_of_not_le hfits) []
        rw [List.append_nil, List.append_nil] at hlong
        have htake : newline ∉ s.take n := fun h => hl (List.mem_of_mem_take h)
        rw [spnamLoop_turn hne hn0 hz hlong, isPrefixOf_take hn, decide_eq_true (getLast_ne_newline htake),
          spnamLoop_skip_end hn0 (fun h => hl (List.mem_of_mem_drop h)) fun h => hz (List.mem_of_mem_drop h)]
        cases (name ++ [':']).isPrefixOf s with
        | true => exact if_pos (getLast_ne_newline htake)
        | false => rfl
    · have hzt : nul ∉ t := fun h => hz (List.mem_append_right _ (List.mem_cons_of_mem _ h))
      have ih := ih t.length (by rw [← hlen, List.length_append, List.length_cons]; omega) hzt rfl
      have hlast : (l ++ [newline]).getLast? = some newline := List.getLast?_concat
      rw [lines_line hl, spnamLines, hlast, ← ih]
      by_cases hfits : l.length < n
      · have hroom : l.length + 1 ≤ n := hfits
        rw [spnamLoop_turn (by simp) hn0 hz (chunk_fits hl hfits t), hlast]
        cases (name ++ [':']).isPrefixOf (l ++ [newline]) with
        | true => simp [hroom]
        | false => simp
      · have hroom : ¬ l.length + 1 ≤ n := by omega
        have hle := Nat.le_of_not_lt hfits
        have htake : newline ∉ l.take n := fun h => hl (List.mem_of_mem_take h)
        have hpiece : (name ++ [':']).isPrefixOf (l.take n) = (name ++ [':']).isPrefixOf (l ++ [newline]) := by
          rw [← isPrefixOf_take hn (l ++ [newline]), List.take_append_of_le_length hle]
        rw [spnamLoop_turn (by simp) hn0 hz (chunk_long hl hle (newline :: t)), hpiece,
          decide_eq_true (getLast_ne_newline htake), spnamLoop_skip hn0 (fun h => hl (List.mem_of_mem_drop h)) (nul_not_mem_drop hz)]
        cases (name ++ [':']).isPrefixOf (l ++ [newline]) with
        | true => simp [hroom, getLast_ne_newline htake]
        | false => simp

end

/-! ## What is read back -/

def Spwd.Clean (sp : Spwd) : Prop := ∀ s ∈ [sp.namp, sp.pwdp], ':' ∉ s ∧ newline ∉ s ∧ nul ∉ s

def Spwd.Bounded (sp : Spwd) : Prop :=
  ∀ n ∈ [sp.lstchg, sp.min, sp.max, sp.warn, sp.inact, sp.expire], n = -1 ∨ 0 ≤ n.toInt

section
variable {α : Type} {n : BitVec 64}

theorem longText_digits (h : n = -1 ∨ 0 ≤ n.toInt) (hn : n ≠ -1) : longText n = Nat.toDigits 10 n.toNat := by
  have hpos : ¬ n.toInt < 0 := Int.not_lt.mpr (h.resolve_left hn)
  rw [longText, if_neg hn, if_neg hpos]

theorem longNumber_digits {k : BitVec 64 → List Char → Parsed α} (stop : Char) (s : List Char) :
    longNumber stop (Nat.toDigits 10 n.toNat ++ s) k =
      match s.dropWhile isNumeral with
      | [] => .overrun
      | d :: rest => if d = stop then k (numeralOf 64 (Nat.toDigits 10 n.toNat ++ s.takeWhile isNumeral)) rest else .skip := by
  have hall := @isNumeral_toDigits n.toNat
  cases hd : Nat.toDigits 10 n.toNat with
  | nil => exact absurd hd Nat.toDigits_ne_nil
  | cons c ds =>
    have hc : c.isDigit = true := Nat.isDigit_of_mem_toDigits (by decide) (by decide) (hd ▸ List.mem_cons_self)
    have hsep : ¬ (c = ':' ∨ c = newline) := by
      rintro (rfl | rfl)
      · cases hc
      · cases hc
    rw [hd] at hall
    rw [List.cons_append, longNumber, if_neg hsep, ← List.cons_append, List.dropWhile_append_of_pos hall,
      List.takeWhile_append_of_pos hall]

theorem longNumber_append (h : n = -1 ∨ 0 ≤ n.toInt) (s : List Char) (k : BitVec 64 → List Char → Parsed α) :
    longNumber ':' (longText n ++ ':' :: s) k = k n s := by
  by_cases hn : n = -1
  · subst hn
    rfl
  · have hc : isNumeral ':' = false := by decide
    rw [longText_digits h hn, longNumber_digits, List.dropWhile_cons_of_neg (by simp [hc]), List.takeWhile_cons_of_neg (by simp [hc]),
      List.append_nil, numeral_toDigits]
    exact if_pos rfl

theorem longNumber_flag (k : BitVec 64 → List Char → Parsed α) :
    longNumber newline (ulongText n ++ [newline, nul]) k = if n = -1 then k n [nul] else .overrun := by
  by_cases hn : n = -1
  · subst hn
    rfl
  · have hend : [newline, nul].dropWhile isNumeral = [] := by decide
    rw [ulongText, if_neg hn, if_neg hn, longNumber_digits, hend]

end

/-- An entry that is written is read back when its flag is -1, which is not printed; with any other flag the parser
leaves its buffer. -/
theorem parsespent_putspent {sp : Spwd} (hclean : sp.Clean) (hbound : sp.Bounded) :
    parsespent (putspent sp ++ [nul]) = if sp.flag = -1 then .entry sp else .overrun := by
  obtain ⟨namp, pwdp, lstchg, min, max, warn, inact, expire, flag⟩ := sp
  have hnamp := hclean namp (by simp)
  have hpwdp := hclean pwdp (by simp)
  have hb : ∀ n ∈ [lstchg, min, max, warn, inact, expire], n = -1 ∨ 0 ≤ n.toInt := hbound
  simp only [putspent, List.append_assoc, List.cons_append, List.nil_append]
  rw [parsespent, field_append hnamp.1 hnamp.2.2, field_append hpwdp.1 hpwdp.2.2, longNumber_append (hb lstchg (by simp)),
    longNumber_append (hb min (by simp)), longNumber_append (hb max (by simp)), longNumber_append (hb warn (by simp)),
    longNumber_append (hb inact (by simp)), longNumber_append (hb expire (by simp)), longNumber_flag]

/-! ## A file that was written -/

section
variable {name : Str} {n : Nat} {sp : Spwd}

theorem putspent_line (h : sp.Clean) : ∃ l, putspent sp = sp.namp ++ ':' :: (l ++ [newline]) ∧ newline ∉ l ∧ nul ∉ l := by
  have hdigits : ∀ n, newline ∉ Nat.toDigits 10 n ∧ nul ∉ Nat.toDigits 10 n := fun n =>
    ⟨toDigits_clean (by decide), toDigits_clean (by decide)⟩
  have hlong : ∀ n, newline ∉ longText n ∧ nul ∉ longText n := by
    intro n
    unfold longText
    split
    · exact ⟨by simp, by simp⟩
    · split
      · have hminus : newline ≠ '-' := by decide
        have hminus' : nul ≠ '-' := by decide
        simp [hdigits, hminus, hminus']
      · exact hdigits _
  have hulong : newline ∉ ulongText sp.flag ∧ nul ∉ ulongText sp.flag := by
    unfold ulongText
    split
    · exact ⟨by simp, by simp⟩
    · exact hdigits _
  have hpwdp := h sp.pwdp (by simp)
  have hcolon : newline ≠ ':' := by decide
  have hcolon' : nul ≠ ':' := by decide
  refine ⟨sp.pwdp ++ ':' :: (longText sp.lstchg ++ ':' :: (longText sp.min ++ ':' :: (longText sp.max ++ ':' ::
    (longText sp.warn ++ ':' :: (longText sp.inact ++ ':' :: (longText sp.expire ++ ':' :: ulongText sp.flag)))))), ?_, ?_, ?_⟩
  · simp [putspent]
  · simp [hlong, hulong, hpwdp, hcolon]
  · simp [hlong, hulong, hpwdp, hcolon']

theorem putspent_starts (hname : ':' ∉ name) (h : ':' ∉ sp.namp) :
    (name ++ [':']).isPrefixOf (putspent sp) = true ↔ sp.namp = name := by
  have hall : ∀ {s : Str}, ':' ∉ s → ∀ t, (s ++ ':' :: t).takeWhile (· ≠ ':') = s := by
    intro s hs t
    have hpos : ∀ c ∈ s, decide (c ≠ ':') = true := fun c hc => decide_eq_true fun he => hs (he ▸ hc)
    rw [List.takeWhile_append_of_pos hpos]
    simp
  rw [List.isPrefixOf_iff_prefix]
  constructor
  · rintro ⟨t, ht⟩
    have heq := congrArg (List.takeWhile (· ≠ ':')) ht
    rw [List.append_assoc, List.singleton_append, hall hname, putspent, hall h] at heq
    exact heq.symm
  · rintro rfl
    exact ⟨_, List.append_assoc sp.namp [':'] _⟩

/-- A line of the file: an entry, which can be read when it is of the user, or a line that is not of the user. -/
def SpItem (name : Str) (n : Nat) : Spwd ⊕ Str → Prop
  | .inl sp => sp.Clean ∧ (sp.namp = name → sp.Bounded ∧ sp.flag = -1 ∧ (putspent sp).length ≤ n)
  | .inr l => newline ∉ l ∧ nul ∉ l ∧ (name ++ [':']).isPrefixOf l = false

end

theorem spnamLines_items {name : Str} {n : Nat} {items : List (Spwd ⊕ Str)} (hname : ':' ∉ name)
    (h : ∀ i ∈ items, SpItem name n i) :
    spnamLines name n (items.map (Sum.elim putspent (· ++ [newline]))) =
      ((items.filterMap Sum.getLeft?).find? fun sp => sp.namp == name).elim .none .entry := by
  induction items with
  | nil => rfl
  | cons i items ih =>
    have ih := ih fun j hj => h j (List.mem_cons_of_mem i hj)
    rw [List.map_cons, spnamLines, ih]
    cases i with
    | inr l =>
      obtain ⟨-, -, hother⟩ := h _ List.mem_cons_self
      have hnot : ¬ (name ++ [':']).isPrefixOf (l ++ [newline]) = true := by
        rw [List.isPrefixOf_iff_prefix, List.prefix_concat_iff]
        rintro (he | hp)
        · have hlast := congrArg List.getLast? he
          rw [List.getLast?_concat, List.getLast?_concat] at hlast
          exact absurd hlast (by decide)
        · rw [List.isPrefixOf_iff_prefix.mpr hp] at hother
          cases hother
      exact if_neg hnot
    | inl sp =>
      obtain ⟨hclean, hread⟩ := h _ List.mem_cons_self
      have hcolon := (hclean sp.namp (by simp)).1
      have hitems : (.inl sp :: items).filterMap Sum.getLeft? = sp :: items.filterMap Sum.getLeft? := rfl
      rw [Sum.elim_inl, hitems, List.find?_cons]
      by_cases he : sp.namp = name
      · obtain ⟨hbound, hflag, hfits⟩ := hread he
        obtain ⟨l, hput, -⟩ := putspent_line hclean
        have hlast : (putspent sp).getLast? = some newline := by
          rw [hput, ← List.cons_append, ← List.append_assoc, List.getLast?_concat]
        rw [if_pos ((putspent_starts hname hcolon).mpr he), if_pos ⟨hlast, hfits⟩, parsespent_putspent hclean hbound, if_pos hflag,
          beq_iff_eq.mpr he]
        rfl
      · have hne : (sp.namp == name) = false := beq_eq_false_iff_ne.mpr he
        rw [if_neg fun hp => he ((putspent_starts hname hcolon).mp hp), hne]

/-- An entry that `putspent` writes is read by `fgetspent` when its flag is -1; with any other flag the parser leaves its
buffer. -/
theorem fgetspent_putspent {sp : Spwd} (hclean : sp.Clean) (hbound : sp.Bounded) (text : Str) :
    fgetspent (lines (putspent sp ++ text)) = (if sp.flag = -1 then .entry sp else .overrun, lines text) := by
  obtain ⟨l, hput, hl, -⟩ := putspent_line hclean
  have hcolon : newline ≠ ':' := by decide
  have hline : newline ∉ sp.namp ++ ':' :: l := by simp [(hclean sp.namp (by simp)).2.1, hcolon, hl]
  have hsplit : lines (putspent sp ++ text) = putspent sp :: lines text := by
    have happ : putspent sp = (sp.namp ++ ':' :: l) ++ [newline] := by rw [hput, List.append_assoc, List.cons_append]
    rw [happ, List.append_assoc, List.singleton_append, lines_line hline]
  rw [hsplit, fgetspent, parsespent_putspent hclean hbound]

def rootSpwd : Spwd :=
  { namp := "root".toList, pwdp := "*".toList, lstchg := 19000, min := 0, max := 99999, warn := 7, inact := -1, expire := -1, flag := -1 }

theorem rootSpwd_clean : rootSpwd.Clean := by
  unfold Spwd.Clean
  decide

theorem rootSpwd_bounded : rootSpwd.Bounded := by
  intro n hn
  simp only [rootSpwd, List.mem_cons, List.not_mem_nil, or_false] at hn
  rcases hn with rfl | rfl | rfl | rfl | rfl | rfl <;> decide

theorem fgetspent_putspent_root : fgetspent (lines (putspent rootSpwd)) = (.entry rootSpwd, []) ∧
    fgetspent (lines (putspent { rootSpwd with flag := 0 })) = (.overrun, []) := by
  have hroot := fgetspent_putspent rootSpwd_clean rootSpwd_bounded []
  have hflag := @fgetspent_putspent { rootSpwd with flag := 0 } rootSpwd_clean rootSpwd_bounded []
  rw [List.append_nil] at hroot hflag
  exact ⟨hroot, hflag⟩

theorem tcbPath_long {name : Str} : 20 + nameMax ≤ ("/etc/tcb/".toList ++ name ++ "/shadow".toList).length ↔ 259 ≤ name.length := by
  simp only [List.length_append, nameMax]
  have h9 : "/etc/tcb/".toList.length = 9 := rfl
  have h7 : "/shadow".toList.length = 7 := rfl
  omega

/-- `getspnam_r` in a file without NUL finds what there is in its lines. -/
theorem getspnam_r_lines {open_ : Str → Except Errno Opened} {name : Str} {size : Nat} {text : Str}
    (hopen : openShadow open_ name = .ok (some text)) (hz : nul ∉ text) :
    getspnamR open_ name size =
      if name.head? = some '.' ∨ name.contains '/' ∨ name = [] then .error .EINVAL
      else if size < name.length + 100 then .error .ERANGE
      else if 259 ≤ name.length then .error .EINVAL
      else spnamLines name (size - 1) (lines text) := by
  rw [getspnamR, hopen]
  by_cases hsize : size < name.length + 100
  · rw [if_pos hsize, if_pos hsize]
  · have hloop := @spnamLoop_lines name text (size - 1) (by omega) hz
    simp only [if_neg hsize, tcbPath_long, hloop]

theorem getspnam_r_lines_root : getspnamR (fun _ => .ok ⟨true, "root:*::::::\nroot:*:::::::\n".toList⟩) "root".toList 104 =
    .entry ⟨"root".toList, ['*'], -1, -1, -1, -1, -1, -1, -1⟩ :=
  (getspnam_r_lines rfl (by decide)).trans (by decide)

/-- The entry of a user is found in the shadow database, whatever the size of the lines of others. -/
theorem shadow_database {open_ : Str → Except Errno Opened} {name : Str} {size : Nat} {items : List (Spwd ⊕ Str)}
    (hname : name.head? ≠ some '.' ∧ '/' ∉ name ∧ name ≠ [] ∧ ':' ∉ name) (hlen : name.length < 259)
    (hsize : name.length + 100 ≤ size) (hopen : openShadow open_ name = .ok (some (dbText putspent items)))
    (h : ∀ i ∈ items, SpItem name (size - 1) i) :
    getspnamR open_ name size = ((items.filterMap Sum.getLeft?).find? fun sp => sp.namp == name).elim .none .entry := by
  obtain ⟨hdot, hslash, hne, hcolon⟩ := hname
  have hline : ∀ i ∈ items, ∃ l, newline ∉ l ∧ Sum.elim putspent (· ++ [newline]) i = l ++ [newline] := by
    intro i hi
    cases i with
    | inl sp =>
      have hclean := (h _ hi).1
      obtain ⟨l, hput, hl, -⟩ := putspent_line hclean
      have hcolon : newline ≠ ':' := by decide
      refine ⟨sp.namp ++ ':' :: l, ?_, ?_⟩
      · simp [(hclean sp.namp (by simp)).2.1, hcolon, hl]
      · rw [Sum.elim_inl, hput, List.append_assoc, List.cons_append]
    | inr l => exact ⟨l, (h _ hi).1, rfl⟩
  have hnul : nul ∉ dbText putspent items := by
    have hnewline : nul ≠ newline := by decide
    have hcolon : nul ≠ ':' := by decide
    intro hz
    obtain ⟨t, ht, hz⟩ := List.mem_flatten.mp hz
    obtain ⟨i, hi, rfl⟩ := List.mem_map.mp ht
    cases i with
    | inl sp =>
      have hclean := (h _ hi).1
      obtain ⟨l, hput, -, hl⟩ := putspent_line hclean
      rw [Sum.elim_inl, hput] at hz
      simp [(hclean sp.namp (by simp)).2.2, hcolon, hl, hnewline] at hz
    | inr l => simp [(h _ hi).2.1, hnewline] at hz
  have hbad : ¬ (name.head? = some '.' ∨ name.contains '/' ∨ name = []) := by
    rintro (h | h | h)
    · exact hdot h
    · exact hslash (List.contains_iff_mem.mp h)
    · exact hne h
  rw [getspnamR, if_neg hbad, if_neg (Nat.not_lt.mpr hsize), if_neg (mt tcbPath_long.mp (Nat.not_le.mpr hlen)), hopen]
  dsimp only
  rw [spnamLoop_lines (by omega) hnul, lines_dbText hline, spnamLines_items hcolon h]

theorem shadow_database_root :
    getspnamR (fun path =>
        if path = "/etc/shadow".toList then .ok ⟨true, dbText putspent [.inr (List.replicate 200 '#'), .inl rootSpwd]⟩
        else .error .ENOENT) "root".toList 104 = .entry rootSpwd := by
  refine (shadow_database ⟨by decide, by decide, by decide, by decide⟩ (by decide) (by decide) rfl fun i hi => ?_).trans rfl
  rcases List.mem_cons.mp hi with rfl | hi
  · exact ⟨by decide, by decide, by decide⟩
  · rw [List.mem_singleton] at hi
    subst hi
    exact ⟨rootSpwd_clean, fun _ => ⟨rootSpwd_bounded, rfl, by decide⟩⟩

end Iamroot
