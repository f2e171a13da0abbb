import Mathlib.Algebra.Group.Int.Defs
import Iamroot.Groups

/-!
# Compiling a regular expression

`jim_regcomp` reads an expression once and writes a program of words as it goes: an
opcode, the distance to the next node, and operands. A link is written as 0 and set
when what comes next is there; a repeat is inserted in front of what it repeats.
No caller passes a flag.
-/

namespace Iamroot.Regexp

inductive RegErr where
  | TOO_BIG
  | UNMATCHED_PAREN
  | UNMATCHED_BRACES
  | BAD_COUNT
  | JUNK_ON_END
  | OPERAND_COULD_BE_EMPTY
  | NESTED_COUNT
  | INTERNAL
  | COUNT_FOLLOWS_NOTHING
  | INVALID_ESCAPE
  | NULL_CHAR
  | UNMATCHED_BRACKET
  deriving DecidableEq

abbrev opEnd : Int := 0
abbrev opBol : Int := 1
abbrev opEol : Int := 2
abbrev opAny : Int := 3
abbrev opAnyof : Int := 4
abbrev opAnybut : Int := 5
abbrev opBranch : Int := 6
abbrev opBack : Int := 7
abbrev opExactly : Int := 8
abbrev opNothing : Int := 9
abbrev opRep : Int := 10
abbrev opRepmin : Int := 11
abbrev opRepx : Int := 12
abbrev opRepxmin : Int := 13
abbrev opBolx : Int := 14
abbrev opEolx : Int := 15
abbrev opWorda : Int := 16
abbrev opWordz : Int := 17
abbrev opOpen : Int := 1001
abbrev opClose : Int := 2001

def regMaxParen : Nat := 100

def maxRepCount : Int := 1000000

def regMagic : Int := 0xFADED00D - 2 ^ 32

/-! ## Characters -/

def peek (s : Str) : Char := s.headD nul

def isMult (c : Char) : Bool := c = '*' || c = '+' || c = '?' || c = '{'

def metaChars : Str := ['^', '$', '.', '[', '(', ')', '|', '?', '{', '+', '*']

def charValue (c : Char) : Int := if c.toNat < 128 then c.toNat else (c.toNat : Int) - 256

/-- How many of at most `n` digits there are, and their value behind `v`. -/
def parseHex : Nat → Str → Nat → Nat × Nat
  | 0, _, v => (0, v)
  | _ + 1, [], v => (0, v)
  | n + 1, c :: s, v =>
    if digitValue c < 16 then
      let r := parseHex n s (16 * v + digitValue c)
      (r.1 + 1, r.2)
    else (0, v)

/-- The value of up to `n` digits behind the letter `c`; without digits, the letter. -/
def hexEscape (c : Char) (n : Nat) (s : Str) : Nat × Int :=
  let r := parseHex n s 0
  if r.1 = 0 then (1, charValue c) else (r.1 + 1, Int.bmod r.2 (2 ^ 32))

/-- `reg_decode_escape`: how much is taken of what follows a backslash, and its value. -/
def decodeEscape : Str → Nat × Int
  | [] => (0, charValue '\\')
  | c :: s =>
    if c = 'b' then (1, 8)
    else if c = 'e' then (1, 27)
    else if c = 'f' then (1, 12)
    else if c = 'n' then (1, 10)
    else if c = 'r' then (1, 13)
    else if c = 't' then (1, 9)
    else if c = 'v' then (1, 11)
    else if c = 'u' ∧ peek s = '{' then
      let r := parseHex 6 s.tail 0
      if 0 < r.1 ∧ peek (s.drop (r.1 + 1)) = '}' ∧ r.2 ≤ 0x1fffff then (r.1 + 3, r.2) else (1, charValue 'u')
    else if c = 'u' then hexEscape c 4 s
    else if c = 'U' then hexEscape c 8 s
    else if c = 'x' then hexEscape c 2 s
    else (1, charValue c)

/-! ## Brackets -/

abbrev CharRange := Int × Int

/-- `reg_addrange`. A range that is swapped is added both ways. -/
def addrange (lower upper : Int) : List CharRange :=
  (if upper < lower then [(upper, lower)] else []) ++ [(lower, upper)]

def chars (lower upper : Char) : List CharRange := addrange lower.toNat upper.toNat

def addrangeStr (s : Str) : List CharRange := s.flatMap fun c => chars c c

def classAlpha : List CharRange := chars 'a' 'z' ++ chars 'A' 'Z'

def classAlnum : List CharRange := chars '0' '9' ++ classAlpha

def classSpace : List CharRange := addrangeStr [' ', '\t', '\r', '\n', Char.ofNat 12, Char.ofNat 11]

def classDigit : List CharRange := chars '0' '9'

def characterClass : List (Str × List CharRange) :=
  [(":alpha:".toList, classAlpha),
   (":alnum:".toList, classAlnum),
   (":space:".toList, classSpace),
   (":blank:".toList, addrangeStr [' ', '\t']),
   (":upper:".toList, chars 'A' 'Z'),
   (":lower:".toList, chars 'a' 'z'),
   (":digit:".toList, classDigit),
   (":xdigit:".toList, chars 'a' 'f' ++ chars 'A' 'F' ++ classDigit),
   (":cntrl:".toList, addrange 0 31 ++ addrange 127 127),
   (":graph:".toList, chars '!' '~'),
   (":print:".toList, chars ' ' '~'),
   (":punct:".toList, chars '!' '/' ++ chars ':' '@' ++ chars '[' (Char.ofNat 96) ++ chars '{' '~')]

def bracketEscape (s : Str) : Except RegErr (Nat × Int) :=
  let r := decodeEscape s
  if r.2 = 0 then .error .NULL_CHAR
  else if r.2 = charValue '\\' ∧ s.drop r.1 = [] then .error .INVALID_ESCAPE
  else .ok r

/-- What is added from `start` on, with `s` behind it, and how much of `s` is taken. -/
def bracketRange (start : Int) (s : Str) : Except RegErr (List CharRange × Nat) :=
  if peek s = '-' ∧ s.tail ≠ [] ∧ peek s.tail ≠ ']' then
    if peek s.tail = '\\' then (bracketEscape (s.drop 2)).map fun r => (addrange start r.2, r.1 + 2)
    else .ok (addrange start (peek s.tail).toNat, 2)
  else
    match if start = '['.toNat then characterClass.find? fun cc => cc.1.isPrefixOf s else none with
    | some cc =>
      if peek (s.drop cc.1.length) = ']' then .ok (cc.2, cc.1.length + 1) else .error .UNMATCHED_BRACKET
    | none => .ok (addrange start start, 0)

def bracketItem (c : Char) (s : Str) : Except RegErr (List CharRange × Nat) :=
  if c ≠ '\\' then bracketRange c.toNat s
  else if peek s = 's' then .ok (classSpace, 1)
  else if peek s = 'd' then .ok (classDigit, 1)
  else if peek s = 'w' then .ok (chars '_' '_' ++ classAlnum, 1)
  else do
    let r ← bracketEscape s
    let t ← bracketRange r.2 (s.drop r.1)
    .ok (t.1, r.1 + t.2)

/-- `while (*pattern != ']')`; the first argument is how much is taken already. -/
def bracketLoop : Nat → Str → Except RegErr (List CharRange × Str)
  | _, [] => .error .UNMATCHED_BRACKET
  | k + 1, _ :: s => bracketLoop k s
  | 0, c :: s =>
    if c = ']' then .ok ([], s)
    else do
      let r ← bracketItem c s
      let t ← bracketLoop r.2 s
      .ok (r.1 ++ t.1, t.2)

/-! ## Leaves -/

inductive Leaf where
  | bol
  | eol
  | any
  | bolx
  | eolx
  | worda
  | wordz
  /-- `ANYOF`, or `ANYBUT` -/
  | set (but : Bool) (ranges : List CharRange)
  | exactly (cs : List Int)
  deriving DecidableEq

namespace Leaf

def op : Leaf → Int
  | bol => opBol
  | eol => opEol
  | any => opAny
  | bolx => opBolx
  | eolx => opEolx
  | worda => opWorda
  | wordz => opWordz
  | set but _ => if but then opAnybut else opAnyof
  | exactly _ => opExactly

def words : Leaf → List Int
  | set _ ranges => ranges.flatMap fun r => [r.2 - r.1 + 1, r.1]
  | exactly cs => cs
  | _ => []

def opnd : Leaf → List Int
  | set but ranges => words (set but ranges) ++ [0]
  | exactly cs => cs ++ [0]
  | _ => []

end Leaf

def bracket (s : Str) : Except RegErr (Leaf × Str) := do
  let but := peek s = '^'
  let s := if but then s.tail else s
  -- Special case. If the first char is ']' or '-', it is part of the set
  let first := peek s = ']' ∨ peek s = '-'
  let t ← bracketLoop 0 (if first then s.tail else s)
  .ok (.set but ((if first then chars (peek s) (peek s) else []) ++ t.1), t.2)

/-- The loop of `EXACTLY`; the first argument is how much is taken already, the second whether a character is. -/
def exactlyLoop : Nat → Bool → Str → Except RegErr (List Int × Str)
  | _, _, [] => .ok ([], [])
  | k + 1, added, _ :: s => exactlyLoop k added s
  | 0, added, c :: s =>
    let escape := c = '\\' ∧ s ≠ []
    if metaChars.contains c ∨ escape ∧ "<>mMwWdDsSAZ".toList.contains (peek s) then .ok ([], c :: s)
    else
      let r := if escape then decodeEscape s else (0, (c.toNat : Int))
      if escape ∧ r.2 = 0 then .error .NULL_CHAR
      -- a MULT takes the last character only
      else if isMult (peek (s.drop r.1)) then .ok (if added then ([], c :: s) else ([r.2], s.drop r.1))
      else (exactlyLoop r.1 true s).map fun t => (r.2 :: t.1, t.2)

def regexactly (s : Str) : Except RegErr (Leaf × Str) := (exactlyLoop 0 false s).map fun t => (.exactly t.1, t.2)

def escapeLeaf (d : Char) : Option Leaf :=
  if d = 'A' then some .bolx
  else if d = 'Z' then some .eolx
  else if d = '<' ∨ d = 'm' then some .worda
  else if d = '>' ∨ d = 'M' then some .wordz
  else if d = 'd' ∨ d = 'D' then some (.set (d = 'D') classDigit)
  else if d = 'w' ∨ d = 'W' then some (.set (d = 'W') (classAlpha ++ classDigit ++ chars '_' '_'))
  else if d = 's' ∨ d = 'S' then some (.set (d = 'S') classSpace)
  else none

def regleaf (c : Char) (s : Str) : Except RegErr (Leaf × Str) :=
  if c = '^' then .ok (.bol, s)
  else if c = '$' then .ok (.eol, s)
  else if c = '.' then .ok (.any, s)
  else if c = '[' then bracket s
  else if c = '|' ∨ c = ')' then .error .INTERNAL
  else if isMult c then .error .COUNT_FOLLOWS_NOTHING
  else if c = '\\' then
    match s with
    | [] => .error .INVALID_ESCAPE
    | d :: t =>
      match escapeLeaf d with
      | some l => .ok (l, t)
      -- Handle general quoted chars in exact-match routine
      | none => regexactly (c :: s)
  else regexactly (c :: s)

/-! ## Flags and counts -/

structure Flags where
  hasWidth : Bool
  simple : Bool
  spStart : Bool
  deriving DecidableEq

def Leaf.flags : Leaf → Flags
  | .any | .set _ _ => ⟨true, true, false⟩
  | .exactly cs => ⟨true, cs.length = 1, false⟩
  | _ => ⟨false, false, false⟩

/-- `strtoul` with base 10: how much it takes, and its value as an `int`. -/
def strtoulTen (s : Str) : Nat × Int :=
  let u := (sign (s.dropWhile isSpace)).2
  let ds := u.takeWhile (·.isDigit)
  let v := ds.foldl (fun n c => 10 * n + digitValue c) 0
  if ds = [] then (0, 0)
  else
    (s.length - u.length + ds.length,
      if ulongMax < v then -1 else Int.bmod (if (sign (s.dropWhile isSpace)).1 then -v else v) (2 ^ 32))

/-- The least and the greatest count, and the text from the last character of the count on. -/
def repCount (s : Str) : Except RegErr (Int × Int × Str) :=
  let op := peek s
  if op ≠ '{' then .ok (if op = '+' then 1 else 0, if op = '?' then 1 else maxRepCount, s)
  else
    let r := strtoulTen s.tail
    let e := s.drop (r.1 + 1)
    if r.1 = 0 then .error .BAD_COUNT
    else if peek e = '}' then if 100 ≤ r.2 then .error .BAD_COUNT else .ok (r.2, r.2, e)
    else if e = [] then .error .UNMATCHED_BRACES
    else
      let t := strtoulTen e.tail
      if peek (e.drop (t.1 + 1)) ≠ '}' then .error .UNMATCHED_BRACES
      else if t.1 ≠ 0 ∧ (t.2 < r.2 ∨ 100 ≤ t.2) then .error .BAD_COUNT
      else if 100 ≤ r.2 then .error .BAD_COUNT
      else .ok (r.2, if t.1 = 0 then maxRepCount else t.2, e.dropWhile (· ≠ '}'))

/-! ## The program -/

abbrev Program := List Int

def word (P : Program) (p : Nat) : Int := P.getD p 0

def regnext (P : Program) (p : Nat) : Nat :=
  let offset := word P (p + 1)
  if offset = 0 then 0
  else if word P p = opBack then (p - offset).toNat
  else (p + offset).toNat

/-- `regnode`; its location is the length of the program. -/
def regnode (P : Program) (op : Int) : Program := P ++ [op, 0]

def reginsert (P : Program) (op : Int) (size opnd : Nat) : Program :=
  P.take opnd ++ op :: List.replicate (size - 1) 0 ++ P.drop opnd

def lastNode (P : Program) : Nat → Nat → Nat
  | 0, scan => scan
  | n + 1, scan => if regnext P scan = 0 then scan else lastNode P n (regnext P scan)

def regtail (P : Program) (p val : Nat) : Program :=
  let scan := lastNode P P.length p
  P.set (scan + 1) (if word P scan = opBack then (scan : Int) - val else (val : Int) - scan)

def regoptail (P : Program) (p val : Nat) : Program :=
  if p ≠ 0 ∧ word P p = opBranch then regtail P (p + 2) val else P

/-- `for (br = ret; br != 0; br = regnext(preg, br))` -/
def regoptails (ender : Nat) : Nat → Program → Nat → Program
  | 0, P, _ => P
  | n + 1, P, br =>
    if br = 0 then P
    else
      let P := regoptail P br ender
      regoptails ender n P (regnext P br)

structure RegComp where
  regparse : Str
  program : Program
  re_nsub : Nat

abbrev Compiled (α : Type) := Except (Option RegErr) α

def Compiled.of {α : Type} (x : Except RegErr α) : Compiled α := x.mapError some

/-- `if (!(flags&HASWIDTH)) *flagp &= ~HASWIDTH; *flagp |= flags&SPSTART;` -/
def Flags.orElse (f flags : Flags) : Flags :=
  { f with hasWidth := f.hasWidth && flags.hasWidth, spStart := f.spStart || flags.spStart }

/-- `*flagp |= flags&HASWIDTH; if (chain == 0) *flagp |= flags&SPSTART;` -/
def Flags.andThen (f flags : Flags) (first : Bool) : Flags :=
  { f with hasWidth := f.hasWidth || flags.hasWidth, spStart := f.spStart || first && flags.spStart }

mutual

def reg : Nat → Bool → RegComp → Compiled (Nat × Flags × RegComp)
  | 0, _, _ => .error none
  | n + 1, paren, st => do
    let noncap := paren ∧ "?:".toList <+: st.regparse
    let parno : Int := if noncap then -1 else if paren then st.re_nsub + 1 else 0
    let st : RegComp :=
      if noncap then { st with regparse := st.regparse.drop 2 }
      else if paren then { st with re_nsub := st.re_nsub + 1 }
      else st
    let ret := st.program.length
    -- Make an OPEN node, if parenthesized.
    let st : RegComp := if paren then { st with program := regnode st.program (opOpen + parno) } else st
    -- Pick up the branches, linking them together.
    let (br, flags, st) ← regbranch n st
    let st : RegComp := if paren then { st with program := regtail st.program ret br } else st
    let (flags, st) ← regalts n ret (Flags.orElse ⟨true, false, false⟩ flags) st
    -- Make a closing node, and hook it on the end.
    let ender := st.program.length
    let P := regnode st.program (if paren then opClose + parno else opEnd)
    let P := regtail P ret ender
    -- Hook the tails of the branches to the closing node.
    let P := regoptails ender P.length P ret
    -- Check for proper termination.
    if paren then
      if peek st.regparse = ')' then .ok (ret, flags, { st with regparse := st.regparse.tail, program := P })
      else .error (some .UNMATCHED_PAREN)
    else if st.regparse = [] then .ok (ret, flags, { st with program := P })
    else if peek st.regparse = ')' then .error (some .UNMATCHED_PAREN)
    else .error (some .JUNK_ON_END)

/-- `while (*preg->regparse == '|')` -/
def regalts : Nat → Nat → Flags → RegComp → Compiled (Flags × RegComp)
  | 0, _, _, _ => .error none
  | n + 1, ret, f, st =>
    if peek st.regparse = '|' then do
      let (br, flags, st) ← regbranch n { st with regparse := st.regparse.tail }
      regalts n ret (f.orElse flags) { st with program := regtail st.program ret br }
    else .ok (f, st)

def regbranch : Nat → RegComp → Compiled (Nat × Flags × RegComp)
  | 0, _ => .error none
  | n + 1, st => do
    let ret := st.program.length
    let (chain, flags, st) ← regpieces n 0 ⟨false, false, false⟩ { st with program := regnode st.program opBranch }
    -- Loop ran zero times.
    if chain = 0 then .ok (ret, flags, { st with program := regnode st.program opNothing })
    else .ok (ret, flags, st)

def regpieces : Nat → Nat → Flags → RegComp → Compiled (Nat × Flags × RegComp)
  | 0, _, _, _ => .error none
  | n + 1, chain, f, st =>
    if st.regparse = [] ∨ peek st.regparse = ')' ∨ peek st.regparse = '|' then .ok (chain, f, st)
    else do
      let (latest, flags, st) ← regpiece n st
      regpieces n latest (f.andThen flags (chain = 0))
        (if chain = 0 then st else { st with program := regtail st.program chain latest })

def regpiece : Nat → RegComp → Compiled (Nat × Flags × RegComp)
  | 0, _ => .error none
  | n + 1, st => do
    let (ret, flags, st) ← regatom n st
    let op := peek st.regparse
    if isMult op = false then .ok (ret, flags, st)
    else if flags.hasWidth = false ∧ op ≠ '?' then .error (some .OPERAND_COULD_BE_EMPTY)
    else do
      let (min, max, s) ← Compiled.of (repCount st.regparse)
      let minimal := peek s.tail = '?'
      let next := ret + 5
      let P := reginsert st.program
        (if minimal then if flags.simple then opRepmin else opRepxmin else if flags.simple then opRep else opRepx) 5 ret
      let P := ((P.set (ret + 2) max).set (ret + 3) min).set (ret + 4) 0
      let back := P.length
      let P := if flags.simple then P else regtail (regtail (regnode P opBack) back ret) next back
      let s := if minimal then s.drop 2 else s.tail
      if isMult (peek s) then .error (some .NESTED_COUNT)
      else .ok (ret, ⟨min ≠ 0, false, min = 0⟩, { st with regparse := s, program := P })

def regatom : Nat → RegComp → Compiled (Nat × Flags × RegComp)
  | 0, _ => .error none
  | n + 1, st =>
    match st.regparse with
    | [] => .error (some .INTERNAL)
    | c :: s =>
      if c = '(' then do
        let (ret, flags, st) ← reg n true { st with regparse := s }
        .ok (ret, { flags with simple := false }, st)
      else do
        let (l, s) ← Compiled.of (regleaf c s)
        .ok (st.program.length, l.flags, { st with regparse := s, program := regnode st.program l.op ++ l.opnd })

end

structure Regex where
  re_nsub : Nat
  regstart : Int
  reganch : Bool
  regmust : Nat
  regmlen : Nat
  program : Program
  deriving DecidableEq

def strIntLen (P : Program) (p : Nat) : Nat := ((P.drop p).takeWhile (· ≠ 0)).length

/-- `for (; scan != 0; scan = regnext(preg, scan))`: the longest literal, and its length. -/
def longestLoop (P : Program) : Nat → Nat → Nat → Nat → Nat × Nat
  | 0, _, longest, len => (longest, len)
  | n + 1, scan, longest, len =>
    if scan = 0 then (longest, len)
    else if word P scan = opExactly ∧ len ≤ strIntLen P (scan + 2) then
      longestLoop P n (regnext P scan) (scan + 2) (strIntLen P (scan + 2))
    else longestLoop P n (regnext P scan) longest len

def jimRegcomp (exp : Str) : Compiled Regex := do
  let (_, flags, st) ← reg (5 * exp.length + 5) false ⟨exp, [regMagic], 0⟩
  let P := st.program
  if regMaxParen ≤ st.re_nsub then .error (some .TOO_BIG)
  -- Only one top-level choice.
  else if word P (regnext P 1) = opEnd then
    let must := if flags.spStart then longestLoop P P.length 3 0 0 else (0, 0)
    .ok { re_nsub := st.re_nsub
          regstart := if word P 3 = opExactly then word P 5 else 0
          reganch := word P 3 = opBol
          regmust := must.1
          regmlen := must.2
          program := P }
  else .ok ⟨st.re_nsub, 0, false, 0, 0, P⟩

end Iamroot.Regexp
