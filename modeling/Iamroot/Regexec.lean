import Iamroot.Regcomp

/-!
# Running a regular expression

`jim_regexec` tries the program at one place of the text after the other. A node that
fails leaves the input where it was by then; the nodes that go on behind a failure set
it back, except for a complex repeat, which leaves it where its body failed. The count
of a complex repeat is a word of the program.
-/

namespace Iamroot.Regexp

/-- `preg->program` and `preg->reginput`; the other fields stay. -/
structure RegState where
  program : Program
  reginput : Nat

abbrev Tried := Option (Bool × RegState)

def Tried.onFail (x : Tried) (f : RegState → Tried) : Tried :=
  match x with
  | some (false, st) => f st
  | x => x

def regRangeFind : List Int → Int → Bool
  | n :: low :: range, c => n ≠ 0 && (low ≤ c && c ≤ n + low - 1 || regRangeFind range c)
  | _, _ => false

def prefixCmp : List Int → Str → Option Nat
  | [], _ => some 0
  | _ :: _, [] => none
  | w :: ws, c :: s => if (c.toNat : Int) ≠ w then none else (prefixCmp ws s).map (· + 1)

def strInts (P : Program) (p : Nat) : List Int := (P.drop p).takeWhile (· ≠ 0)

def isWordChar (c : Char) : Bool := c.isAlphanum || c = '_'

def takes (P : Program) (p : Nat) (c : Int) : Bool :=
  if word P p = opAny then true
  else if word P p = opExactly then word P (p + 2) = c
  else if word P p = opAnyof then regRangeFind (P.drop (p + 2)) c
  else if word P p = opAnybut then !regRangeFind (P.drop (p + 2)) c
  else false

def regrepeat (f : Int → Bool) : Int → Str → Nat
  | _, [] => 0
  | max, c :: s => if 0 < max ∧ f c.toNat then regrepeat f (max - 1) s + 1 else 0

def tryEach (f : Int → RegState → Tried) : List Int → RegState → Tried
  | [], st => some (false, st)
  | n :: ns, st => (f n st).onFail (tryEach f ns)

/-- From `min` up to `no`, or from `no` down to `min`. -/
def repeatCounts (matchmin : Bool) (min no : Int) : List Int :=
  let counts := (List.range (no - min + 1).toNat).map fun n => min + (n : Int)
  if matchmin then counts else counts.reverse

def regmatchsimplerepeat (text : Str) (regmatch : Nat → RegState → Tried) (scan : Nat) (matchmin : Bool) (st : RegState) : Tried :=
  let P := st.program
  let max := word P (scan + 2)
  let min := word P (scan + 3)
  let next := regnext P scan
  -- Lookahead to avoid useless match attempts when we know what character comes next.
  let nextch := if word P next = opExactly then word P (next + 2) else 0
  let no : Int := regrepeat (takes P (scan + 5)) max (text.drop st.reginput)
  if no < min then some (false, { st with reginput := (st.reginput + no).toNat })
  else
    tryEach (fun n st' =>
      let i := (st.reginput + n).toNat
      if nextch = 0 ∨ ((peek (text.drop i)).toNat : Int) = nextch then regmatch next { st' with reginput := i }
      else some (false, { st' with reginput := i })) (repeatCounts matchmin min no) st

def addCount (scan : Nat) (n : Int) (st : RegState) : RegState :=
  { st with program := st.program.set (scan + 4) (word st.program (scan + 4) + n) }

def regmatchrepeat (regmatch : Nat → RegState → Tried) (scan : Nat) (matchmin : Bool) (st : RegState) : Tried :=
  let count := word st.program (scan + 4)
  let max := word st.program (scan + 2)
  let min := word st.program (scan + 3)
  let again (st : RegState) : Tried :=
    (regmatch (scan + 5) (addCount scan 1 st)).onFail fun st => some (false, addCount scan (-1) st)
  -- Have we reached min?
  if count < min then again st
  else if max < count then some (false, st)
  -- minimal, so try other branch first
  else if matchmin then (regmatch (regnext st.program scan) st).onFail again
  -- maximal, so try this branch again
  else
    Tried.onFail (if count < max then again st else some (false, st)) fun st => regmatch (regnext st.program scan) st

def regbranches (regmatch : Nat → RegState → Tried) : Nat → Nat → RegState → Tried
  | 0, _, _ => none
  | n + 1, scan, st =>
    (regmatch (scan + 2) st).onFail fun st' =>
      let st : RegState := { st' with reginput := st.reginput }
      let scan := regnext st.program scan
      if scan ≠ 0 ∧ word st.program scan = opBranch then regbranches regmatch n scan st else some (false, st)

/-- `regmatch`; `REG_ERR_INTERNAL` is not 0 and counts as a success. -/
def regmatch (text : Str) : Nat → Nat → RegState → Tried
  | 0, _, _ => none
  | n + 1, scan, st =>
    let P := st.program
    let next := regnext P scan
    let op := word P scan
    let c := peek (text.drop st.reginput)
    let prev := peek (text.drop (st.reginput - 1))
    if scan = 0 then some (true, st)
    else if op = opBol ∨ op = opBolx then
      if st.reginput ≠ 0 then some (false, st) else regmatch text n next st
    else if op = opEol ∨ op = opEolx then
      if c ≠ nul then some (false, st) else regmatch text n next st
    else if op = opWorda then
      if isWordChar c = false ∨ 0 < st.reginput ∧ isWordChar prev then some (false, st) else regmatch text n next st
    else if op = opWordz then
      if 0 < st.reginput ∧ (c = nul ∨ isWordChar c = false) ∧ isWordChar prev then regmatch text n next st else some (false, st)
    else if op = opAny then
      if c = nul then some (false, st) else regmatch text n next { st with reginput := st.reginput + 1 }
    else if op = opExactly then
      match prefixCmp (strInts P (scan + 2)) (text.drop st.reginput) with
      | none => some (false, st)
      | some slen => regmatch text n next { st with reginput := st.reginput + slen }
    else if op = opAnyof ∨ op = opAnybut then
      if c = nul ∨ regRangeFind (P.drop (scan + 2)) c.toNat ≠ decide (op = opAnyof) then some (false, st)
      else regmatch text n next { st with reginput := st.reginput + 1 }
    else if op = opNothing ∨ op = opBack then regmatch text n next st
    else if op = opBranch then
      -- No choice: avoid recursion.
      if word P next ≠ opBranch then regmatch text n (scan + 2) st
      else regbranches (regmatch text n) n scan st
    else if op = opRep ∨ op = opRepmin then regmatchsimplerepeat text (regmatch text n) scan (op = opRepmin) st
    else if op = opRepx ∨ op = opRepxmin then regmatchrepeat (regmatch text n) scan (op = opRepxmin) st
    else if op = opEnd then some (true, st)
    else if op = opOpen - 1 ∨ op = opClose - 1 then regmatch text n next st
    else if opOpen < op ∧ op < opClose + regMaxParen then
      -- Restore input position after failure
      (regmatch text n next st).onFail fun st' => some (false, { st' with reginput := st.reginput })
    else some (true, st)

def regopsize (P : Program) (p : Nat) : Nat :=
  let op := word P p
  if op = opRep ∨ op = opRepmin ∨ op = opRepx ∨ op = opRepxmin then 5
  else if op = opAnyof ∨ op = opAnybut ∨ op = opExactly then strIntLen P (p + 2) + 3
  else 2

def clearCounts : Nat → Nat → Program → Program
  | 0, _, P => P
  | n + 1, scan, P =>
    if word P scan = opEnd then P
    else
      clearCounts n (scan + regopsize P scan)
        (if word P scan = opRepx ∨ word P scan = opRepxmin then P.set (scan + 4) 0 else P)

def mustAppear (must : List Int) : Str → Bool
  | [] => false
  | c :: s => (c.toNat : Int) = must.headD 0 && (prefixCmp must (c :: s)).isSome || mustAppear must s

/-- `regtry` where the text may start to match: everywhere, or at the character `start`. -/
def regtries (text : Str) (fuel : Nat) (start : Int) : Str → Nat → Program → Tried
  | [], i, P => if start = 0 then regmatch text fuel 1 ⟨P, i⟩ else some (false, ⟨P, i⟩)
  | c :: s, i, P =>
    if start = 0 ∨ (c.toNat : Int) = start then
      (regmatch text fuel 1 ⟨P, i⟩).onFail fun st => regtries text fuel start s (i + 1) st.program
    else regtries text fuel start s (i + 1) P

/-- `jim_regexec` without a flag and with one match: whether there is one, and what becomes of the program. -/
def jimRegexec (fuel : Nat) (R : Regex) (text : Str) : Tried :=
  let P := clearCounts R.program.length 3 R.program
  if R.regmust ≠ 0 ∧ mustAppear ((P.drop R.regmust).take R.regmlen) text = false then some (false, ⟨P, 0⟩)
  else if R.reganch then regmatch text fuel 1 ⟨P, 0⟩
  else regtries text fuel R.regstart text 0 P

end Iamroot.Regexp
