import Mathlib.Data.List.DropRight
import Iamroot.SanitizeBuf
import Iamroot.ArenaRoom

/-!
# The hashbang line in its buffer

`__interpreter_script_hashbang` reads the start of a script into the buffer and
copies the words of the line to the front of what it has read, with a writer `d`
behind the reader `s`. `__interpreter_script` finds the words again by the size
that was returned.
-/

namespace Iamroot

/-! ## The two scanners -/

/-- The buffer, the two pointers into it, and each write so far with the place of the reader. -/
structure Scanners where
  buf : List Char
  d : Nat
  s : Nat
  writes : List (Nat × Nat)

namespace Scanners

def put (x : Scanners) (c : Char) : Option Scanners := do
  let buf ← poke x.buf x.d c
  some { x with buf := buf, d := x.d + 1, writes := (x.d, x.s) :: x.writes }

/-- `while (isblank(*s)) s++;` -/
def skipBlanks : Nat → Scanners → Option Scanners
  | 0, _ => none
  | fuel + 1, x => do
    let c ← x.buf[x.s]?
    if isBlank c then skipBlanks fuel { x with s := x.s + 1 } else some x

/-- `while (*s && *s != '\n' && !isblank(*s)) *d++ = *s++;` -/
def copyWord : Nat → Scanners → Option Scanners
  | 0, _ => none
  | fuel + 1, x => do
    let c ← x.buf[x.s]?
    if inWord c then do
      let x ← put { x with s := x.s + 1 } c
      copyWord fuel x
    else some x

def word (fuel : Nat) (x : Scanners) : Option Scanners := do
  let x ← skipBlanks fuel x
  let x ← copyWord fuel x
  x.put nul

def line (fuel : Nat) (x : Scanners) : Option Scanners := do
  let x ← word fuel x
  let c ← x.buf[x.s]?
  if isBlank c then word fuel x else some x

end Scanners

def pokes : List Char → Nat → Str → Option (List Char)
  | b, _, [] => some b
  | b, i, c :: s => do
    let b ← poke b i c
    pokes b (i + 1) s

/-- The value of the function, and the buffer with its scanners. The file is what `open`, `fstat` and `read` make of the
path; with an offset past the end of the buffer, the size for `read` wraps around. -/
def interpreterScriptHashbangBuf (f : Except Errno Str) (b : List Char) (bufsiz offset : Nat) :
    Option (Except Errno Nat × Scanners) :=
  let x : Scanners := { buf := b, d := offset, s := offset + 2, writes := [] }
  match f with
  | .error e => some (.error e, x)
  | .ok [] => do
    let b ← pokes b offset (if bufsiz = 0 then [] else strncpy pathBshell bufsiz ++ [nul])
    some (.ok (if pathBshell.length < bufsiz then pathBshell.length else 0), { x with buf := b })
  | .ok content =>
    if bufsiz ≤ offset then none
    else do
      let text := content.take (bufsiz - offset - 1)
      let b ← pokes b offset (text ++ [nul])
      if text.length < 2 ∨ b[offset]? ≠ some '#' ∨ b[offset + 1]? ≠ some '!' then some (.error .ENOEXEC, { x with buf := b })
      else do
        let x ← Scanners.line bufsiz { x with buf := b }
        some (.ok (x.d - offset - 1), x)

inductive InterpArg where
  | buf (i : Nat)
  | script

def InterpArg.text (b : List Char) (path : Str) : InterpArg → Str
  | .buf i => cstr (b.drop i)
  | .script => path

def interpArgs (b : List Char) (bufsiz offset siz : Nat) : Option (Option (List InterpArg)) :=
  if siz < 1 then some none
  else
    let len := strnlen (cstr (b.drop offset)) (bufsiz - offset)
    if len < siz then do
      let c ← b[offset + len + 1]?
      if c ≠ nul then some (some [.buf offset, .buf (offset + len + 1), .script])
      else some (some [.buf offset, .script])
    else some (some [.buf offset, .script])

def interpreterScriptBuf (f : Except Errno Str) (b : List Char) (bufsiz offset : Nat) :
    Option (Option (List InterpArg) × Scanners) := do
  let (siz, x) ← interpreterScriptHashbangBuf f b bufsiz offset
  match siz with
  | .error _ => some (none, x)
  | .ok siz => do
    let args ← interpArgs x.buf bufsiz offset siz
    some (args, x)

/-- `for (i = 1; i < ret; i++) off += strnlen(&buf[off], sizeof(buf)-off)+1;` in `execve`. -/
def offBehind (b : List Char) (bufsiz : Nat) : Nat → Nat → Nat
  | 0, off => off
  | n + 1, off => offBehind b bufsiz n (off + strnlen (cstr (b.drop off)) (bufsiz - off) + 1)

/-! ## What Linux does -/

def inLine (c : Char) : Bool := c ≠ '\n' && c ≠ nul

def scriptLine (content : Str) : Str := content.takeWhile inLine

def optionalArg (line : Str) : Str :=
  let rest := ((line.drop 2).dropWhile isBlank).dropWhile (! isBlank ·)
  (rest.dropWhile isBlank).rdropWhile isBlank

/-- The vector that a line asks for, unless it names no interpreter. -/
def linuxVector (line path : Str) : Option (List Str) :=
  let name := ((line.drop 2).dropWhile isBlank).takeWhile (! isBlank ·)
  if name = [] then none else some (name :: (if optionalArg line = [] then [] else [optionalArg line]) ++ [path])

/-! ## One scanner behind the other -/

def copiedWords (r : Str × Option Str) : List Char := r.1 ++ nul :: r.2.elim [] (· ++ [nul])

theorem length_copiedWords (r : Str × Option Str) : (copiedWords r).length = hashbangSize r + 1 := by
  obtain ⟨word, arg⟩ := r
  cases arg with
  | none => simp [copiedWords, hashbangSize]
  | some a =>
    simp [copiedWords, hashbangSize]
    omega

namespace Scanners

/-- A buffer of `n` bytes: what was written is `out`, what is still to be read is `todo`, with `g` bytes between the two at
least, and every write so far was behind the reader. -/
structure At (n g : Nat) (out todo : List Char) (x : Scanners) : Prop where
  size : x.buf.length = n
  out : x.buf.take x.d = out
  todo : x.buf.drop x.s = todo
  gap : x.d + g ≤ x.s
  inside : x.s ≤ n
  behind : ∀ w ∈ x.writes, w.1 < w.2

variable {n g fuel : Nat} {out todo : List Char} {x : Scanners} {c : Char}

theorem At.head (h : At n g out (c :: todo) x) : x.buf[x.s]? = some c := by
  have := congrArg List.head? h.todo
  rwa [List.head?_drop] at this

theorem At.next (h : At n g out (c :: todo) x) : At n (g + 1) out todo { x with s := x.s + 1 } where
  size := h.size
  out := h.out
  todo := by
    show x.buf.drop (x.s + 1) = todo
    rw [← List.drop_drop, h.todo]
    rfl
  gap := by
    have := h.gap
    show x.d + (g + 1) ≤ x.s + 1
    omega
  inside := by
    have hlen := congrArg List.length h.todo
    rw [List.length_drop, h.size, List.length_cons] at hlen
    show x.s + 1 ≤ n
    omega
  behind := h.behind

theorem At.mono (h : At n (g + 1) out todo x) : At n g out todo x :=
  { h with gap := by have := h.gap; omega }

theorem At.put (h : At n (g + 1) out todo x) (c : Char) : ∃ x', x.put c = some x' ∧ At n g (out ++ [c]) todo x' := by
  have hgap : x.d + 1 + g ≤ x.s := by
    have := h.gap
    omega
  have hbehind : x.d < x.s := by omega
  have hlt : x.d < x.buf.length := by
    rw [h.size]
    exact Nat.lt_of_lt_of_le hbehind h.inside
  refine ⟨{ x with buf := x.buf.set x.d c, d := x.d + 1, writes := (x.d, x.s) :: x.writes }, ?_, ?_⟩
  · rw [Scanners.put, poke, if_pos hlt]
    rfl
  · constructor
    · rw [List.length_set, h.size]
    · rw [List.take_add_one, List.getElem?_set_self hlt, List.take_set_of_le (Nat.le_refl _), h.out]
      rfl
    · rw [List.drop_set_of_lt hbehind, h.todo]
    · exact hgap
    · exact h.inside
    · intro w hw
      rcases List.mem_cons.mp hw with rfl | hw
      · exact hbehind
      · exact h.behind w hw

theorem mem_of_stop {p : Char → Bool} (hp : p nul = false) (h : p c = true) (hz : nul ∈ c :: todo) : nul ∈ todo := by
  rcases List.mem_cons.mp hz with rfl | hz
  · rw [hp] at h
    cases h
  · exact hz

theorem At.skipBlanks (h : At n g out todo x) (hz : nul ∈ todo) (hf : todo.length ≤ fuel) :
    ∃ x', x.skipBlanks fuel = some x' ∧ At n g out (todo.dropWhile isBlank) x' := by
  induction todo generalizing x fuel with
  | nil => cases hz
  | cons c todo ih =>
    obtain ⟨fuel, rfl⟩ := Nat.exists_eq_succ_of_ne_zero (Nat.ne_of_gt (Nat.lt_of_lt_of_le (Nat.succ_pos _) hf))
    rw [Scanners.skipBlanks, h.head]
    by_cases hc : isBlank c = true
    · obtain ⟨x', hx', hat⟩ := ih h.next.mono (mem_of_stop rfl hc hz) (Nat.le_of_succ_le_succ hf)
      rw [List.dropWhile_cons_of_pos hc]
      exact ⟨x', (if_pos hc).trans hx', hat⟩
    · rw [List.dropWhile_cons_of_neg hc]
      exact ⟨x, if_neg hc, h⟩

theorem At.copyWord (h : At n g out todo x) (hz : nul ∈ todo) (hf : todo.length ≤ fuel) :
    ∃ x', x.copyWord fuel = some x' ∧ At n g (out ++ todo.takeWhile inWord) (todo.dropWhile inWord) x' := by
  induction todo generalizing out x fuel with
  | nil => cases hz
  | cons c todo ih =>
    obtain ⟨fuel, rfl⟩ := Nat.exists_eq_succ_of_ne_zero (Nat.ne_of_gt (Nat.lt_of_lt_of_le (Nat.succ_pos _) hf))
    rw [Scanners.copyWord, h.head]
    by_cases hc : inWord c = true
    · obtain ⟨x₁, hx₁, hat₁⟩ := h.next.put c
      obtain ⟨x', hx', hat⟩ := ih hat₁ (mem_of_stop rfl hc hz) (Nat.le_of_succ_le_succ hf)
      rw [List.takeWhile_cons_of_pos hc, List.dropWhile_cons_of_pos hc]
      refine ⟨x', (if_pos hc).trans ?_, by simpa using hat⟩
      rw [hx₁]
      exact hx'
    · rw [List.takeWhile_cons_of_neg hc, List.dropWhile_cons_of_neg hc, List.append_nil]
      exact ⟨x, if_neg hc, h⟩

theorem nul_mem_dropWhile {p : Char → Bool} (hp : p nul = false) (hz : nul ∈ todo) : nul ∈ todo.dropWhile p := by
  rw [← List.takeWhile_append_dropWhile (p := p) (l := todo)] at hz
  rcases List.mem_append.mp hz with hz | hz
  · have := List.mem_takeWhile_imp hz
    rw [hp] at this
    cases this
  · exact hz

theorem At.word (h : At n (g + 1) out todo x) (hz : nul ∈ todo) (hf : todo.length ≤ fuel) :
    ∃ x', x.word fuel = some x' ∧ At n g (out ++ ((todo.dropWhile isBlank).takeWhile inWord ++ [nul]))
      ((todo.dropWhile isBlank).dropWhile inWord) x' := by
  obtain ⟨x₁, hx₁, h₁⟩ := h.skipBlanks hz hf
  obtain ⟨x₂, hx₂, h₂⟩ := h₁.copyWord (nul_mem_dropWhile rfl hz) ((List.dropWhile_sublist _).length_le.trans hf)
  obtain ⟨x₃, hx₃, h₃⟩ := h₂.put nul
  refine ⟨x₃, ?_, by simpa using h₃⟩
  rw [Scanners.word, hx₁]
  show (x₁.copyWord fuel).bind _ = _
  rw [hx₂]
  exact hx₃

/-- The words of the line stand where the writer began, and no byte was overwritten before it was read. -/
theorem At.line (h : At n 2 out todo x) (hz : nul ∈ todo) (hf : todo.length ≤ fuel) :
    ∃ x' rest, x.line fuel = some x' ∧ At n 0 (out ++ copiedWords (hashbangWords todo)) rest x' := by
  obtain ⟨x₁, hx₁, h₁⟩ := h.word hz hf
  have hz₁ : nul ∈ (todo.dropWhile isBlank).dropWhile inWord := nul_mem_dropWhile rfl (nul_mem_dropWhile rfl hz)
  have hf₁ : ((todo.dropWhile isBlank).dropWhile inWord).length ≤ fuel :=
    ((List.dropWhile_sublist _).trans (List.dropWhile_sublist _)).length_le.trans hf
  rw [Scanners.line, hx₁]
  unfold copiedWords hashbangWords
  dsimp only
  generalize (todo.dropWhile isBlank).dropWhile inWord = rest at h₁ hz₁ hf₁ ⊢
  cases rest with
  | nil => cases hz₁
  | cons c rest =>
    show ∃ x' rest', (x₁.buf[x₁.s]?).bind _ = _ ∧ _
    rw [h₁.head]
    by_cases hc : isBlank c = true
    · obtain ⟨x₂, hx₂, h₂⟩ := h₁.word hz₁ hf₁
      refine ⟨x₂, ((c :: rest).dropWhile isBlank).dropWhile inWord, (if_pos hc).trans hx₂, ?_⟩
      simpa [hc] using h₂
    · refine ⟨x₁, c :: rest, if_neg hc, ?_⟩
      simpa [hc] using h₁.mono

end Scanners

/-! ## The text of the line -/

section
variable {p : Char → Bool} {z : Char} {u r : Str}

theorem takeWhile_stop (hz : p z = false) (u r : Str) : (u ++ z :: r).takeWhile p = u.takeWhile p := by
  induction u with
  | nil => exact List.takeWhile_cons_of_neg (by simp [hz])
  | cons c u ih =>
    rw [List.cons_append, List.takeWhile_cons, List.takeWhile_cons, ih]

theorem dropWhile_stop (hz : p z = false) (u r : Str) : (u ++ z :: r).dropWhile p = u.dropWhile p ++ z :: r := by
  induction u with
  | nil => exact List.dropWhile_cons_of_neg (by simp [hz])
  | cons c u ih =>
    rw [List.cons_append, List.dropWhile_cons, List.dropWhile_cons, ih]
    split
    · rfl
    · rfl

theorem hashbangWords_stop (hb : isBlank z = false) (hw : inWord z = false) (u r : Str) :
    hashbangWords (u ++ z :: r) = hashbangWords u := by
  unfold hashbangWords
  dsimp only
  rw [dropWhile_stop hb, takeWhile_stop hw, dropWhile_stop hw]
  cases (u.dropWhile isBlank).dropWhile inWord with
  | nil => simp [hb]
  | cons c rest =>
    rw [dropWhile_stop hb, takeWhile_stop hw]
    rfl

theorem inWord_of_inLine {c : Char} (hc : inLine c = true) : inWord c = ! isBlank c := by
  have h : c ≠ '\n' ∧ c ≠ nul := by simpa [inLine] using hc
  simp [inWord, h.1, h.2]

theorem takeWhile_inWord (hu : ∀ c ∈ u, inLine c = true) : u.takeWhile inWord = u.takeWhile (! isBlank ·) := by
  induction u with
  | nil => rfl
  | cons c u ih =>
    rw [List.takeWhile_cons, List.takeWhile_cons, ih fun x hx => hu x (List.mem_cons_of_mem _ hx),
      inWord_of_inLine (hu c List.mem_cons_self)]

theorem dropWhile_inWord (hu : ∀ c ∈ u, inLine c = true) : u.dropWhile inWord = u.dropWhile (! isBlank ·) := by
  induction u with
  | nil => rfl
  | cons c u ih =>
    rw [List.dropWhile_cons, List.dropWhile_cons, ih fun x hx => hu x (List.mem_cons_of_mem _ hx),
      inWord_of_inLine (hu c List.mem_cons_self)]

end

def firstWord (line : Str) : Str :=
  ((((line.drop 2).dropWhile isBlank).dropWhile (! isBlank ·)).dropWhile isBlank).takeWhile (! isBlank ·)

theorem hashbangWords_line {line : Str} (h : ∀ c ∈ line, inLine c = true) :
    (hashbangWords (line.drop 2)).1 = ((line.drop 2).dropWhile isBlank).takeWhile (! isBlank ·) ∧
      (hashbangWords (line.drop 2)).2.getD [] = firstWord line := by
  have hu : ∀ c ∈ (line.drop 2).dropWhile isBlank, inLine c = true := fun c hc =>
    h c (List.mem_of_mem_drop ((List.dropWhile_sublist _).subset hc))
  have hrest : ∀ c ∈ (((line.drop 2).dropWhile isBlank).dropWhile (! isBlank ·)).dropWhile isBlank, inLine c = true :=
    fun c hc => hu c (((List.dropWhile_sublist _).trans (List.dropWhile_sublist _)).subset hc)
  refine ⟨takeWhile_inWord hu, ?_⟩
  unfold hashbangWords firstWord
  dsimp only
  rw [dropWhile_inWord hu]
  cases hr : ((line.drop 2).dropWhile isBlank).dropWhile (! isBlank ·) with
  | nil => rfl
  | cons c rest =>
    have hc : isBlank c = true := by
      have := List.head?_dropWhile_not (! isBlank ·) ((line.drop 2).dropWhile isBlank)
      rw [hr] at this
      simpa using this
    rw [hr] at hrest
    simp only [List.head?_cons, Option.any_some, hc, if_true, Option.getD_some]
    exact takeWhile_inWord hrest

theorem hashbangWords_nil {s : Str} (h : (hashbangWords s).1 = []) : (hashbangWords s).2 = none := by
  unfold hashbangWords at h ⊢
  dsimp only at h ⊢
  have hhead := List.head?_dropWhile_not isBlank s
  cases hv : s.dropWhile isBlank with
  | nil => rfl
  | cons c v =>
    rw [hv] at h hhead
    have hc : ¬ inWord c = true := by
      intro hc
      rw [List.takeWhile_cons_of_pos hc] at h
      cases h
    rw [List.dropWhile_cons_of_neg hc]
    refine if_neg ?_
    simpa using hhead

/-- The first word is the whole argument when there is one word at most. -/
theorem firstWord_eq_iff (line : Str) : firstWord line = optionalArg line ↔ ∀ c ∈ optionalArg line, isBlank c = false := by
  unfold firstWord optionalArg
  dsimp only
  generalize (((line.drop 2).dropWhile isBlank).dropWhile (! isBlank ·)).dropWhile isBlank = v
  constructor
  · intro h c hc
    rw [← h] at hc
    simpa using List.mem_takeWhile_imp hc
  · intro h
    have hsplit : v = v.rdropWhile isBlank ++ v.rtakeWhile isBlank := List.rdropWhile_append_rtakeWhile.symm
    have htail : (v.rtakeWhile isBlank).takeWhile (! isBlank ·) = [] := by
      cases ht : v.rtakeWhile isBlank with
      | nil => rfl
      | cons c t =>
        have hc : isBlank c = true := List.mem_rtakeWhile_imp (l := v) (ht ▸ List.mem_cons_self)
        exact List.takeWhile_cons_of_neg (by simp [hc])
    conv_lhs => rw [hsplit]
    rw [List.takeWhile_append_of_pos fun c hc => by simp [h c hc], htail, List.append_nil]

/-! ## The line in the buffer -/

theorem pokes_eq (s : Str) {b : List Char} {i : Nat} (h : i + s.length ≤ b.length) :
    pokes b i s = some (b.take i ++ s ++ b.drop (i + s.length)) := by
  induction s generalizing b i with
  | nil => simp [pokes]
  | cons c s ih =>
    rw [List.length_cons] at h
    have hi : i < b.length := by omega
    rw [pokes, poke, if_pos hi]
    show pokes (b.set i c) (i + 1) s = _
    rw [ih (by rw [List.length_set]; omega), List.take_add_one, List.getElem?_set_self hi, List.take_set_of_le (Nat.le_refl _),
      List.drop_set_of_lt (by omega), List.length_cons]
    have hadd : i + 1 + s.length = i + (s.length + 1) := by omega
    rw [hadd]
    simp

theorem not_inLine {z : Char} (hz : inLine z = false) : isBlank z = false ∧ inWord z = false := by
  have h : z = '\n' ∨ z = nul := by
    by_contra hne
    obtain ⟨h1, h2⟩ := not_or.mp hne
    simp [inLine, h1, h2] at hz
  rcases h with rfl | rfl
  · exact ⟨rfl, rfl⟩
  · exact ⟨rfl, rfl⟩

theorem line_ends {t : Str} {k : Nat} (rest : Str) (h : (t.takeWhile inLine).length ≤ k) :
    ∃ z r, t.take k ++ nul :: rest = t.takeWhile inLine ++ z :: r ∧ inLine z = false := by
  have hsplit : t.take k = t.takeWhile inLine ++ (t.dropWhile inLine).take (k - (t.takeWhile inLine).length) := by
    conv_lhs => rw [← List.takeWhile_append_dropWhile (p := inLine) (l := t)]
    rw [List.take_append, List.take_of_length_le h]
  rw [hsplit, List.append_assoc]
  cases hd : (t.dropWhile inLine).take (k - (t.takeWhile inLine).length) with
  | nil => exact ⟨nul, rest, rfl, rfl⟩
  | cons z r =>
    refine ⟨z, r ++ nul :: rest, rfl, ?_⟩
    have hhead := List.head?_dropWhile_not inLine t
    cases hd' : t.dropWhile inLine with
    | nil => rw [hd'] at hd; simp at hd
    | cons z' r' =>
      rw [hd'] at hd hhead
      have hz : z' = z := by
        cases hk : k - (t.takeWhile inLine).length with
        | zero => rw [hk] at hd; cases hd
        | succ k' => rw [hk] at hd; exact (List.cons.inj hd).1
      rw [← hz]
      simpa using hhead

section
variable {t content b : List Char} {bufsiz offset : Nat}

theorem read_script (hb : b.length = bufsiz) (hfits : (t.takeWhile inLine).length + 2 < bufsiz - offset) :
    ∃ b' todo, pokes b offset ((['#', '!'] ++ t).take (bufsiz - offset - 1) ++ [nul]) = some b' ∧
      b'[offset]? = some '#' ∧ b'[offset + 1]? = some '!' ∧
      Scanners.At bufsiz 2 (b.take offset) todo ⟨b', offset, offset + 2, []⟩ ∧
      nul ∈ todo ∧ hashbangWords todo = hashbangWords (t.takeWhile inLine) := by
  obtain ⟨k, hk⟩ : ∃ k, bufsiz - offset - 1 = k + 2 := ⟨bufsiz - offset - 3, by omega⟩
  have htext : (['#', '!'] ++ t).take (bufsiz - offset - 1) = '#' :: '!' :: t.take k := by rw [hk]; rfl
  have hlen : (t.take k).length ≤ k := List.length_take_le _ _
  have hpre : (b.take offset).length = offset := by rw [List.length_take]; omega
  have hpokes := pokes_eq ('#' :: '!' :: t.take k ++ [nul]) (b := b) (i := offset) (by simp; omega)
  generalize hrest : b.drop (offset + ('#' :: '!' :: t.take k ++ [nul]).length) = rest at hpokes
  have hbuf : b.take offset ++ ('#' :: '!' :: t.take k ++ [nul]) ++ rest =
      b.take offset ++ '#' :: '!' :: (t.take k ++ nul :: rest) := by simp
  rw [hbuf] at hpokes
  obtain ⟨z, r, hz, hstop⟩ := line_ends (t := t) (k := k) rest (by omega)
  have hget : ∀ i, (b.take offset ++ '#' :: '!' :: (t.take k ++ nul :: rest))[offset + i]? =
      ('#' :: '!' :: (t.take k ++ nul :: rest))[i]? := by
    intro i
    rw [List.getElem?_append_right (by omega), hpre, Nat.add_sub_cancel_left]
  refine ⟨_, t.take k ++ nul :: rest, by rw [htext]; exact hpokes, hget 0, hget 1, ?_, by simp, ?_⟩
  · constructor
    · have hlr := congrArg List.length hrest
      simp at hlr ⊢
      omega
    · exact List.take_left' hpre
    · show (b.take offset ++ '#' :: '!' :: (t.take k ++ nul :: rest)).drop (offset + 2) = _
      rw [← List.drop_drop, List.drop_left' hpre]
      rfl
    · exact Nat.le_refl _
    · show offset + 2 ≤ bufsiz
      omega
    · simp
  · rw [hz, hashbangWords_stop (not_inLine hstop).1 (not_inLine hstop).2]

/-- The words of the line, and nothing else, are in front of the writer when the function returns their size. -/
theorem interpreterScriptHashbangBuf_eq (hb : b.length = bufsiz) (hbang : ['#', '!'] <+: content)
    (hfits : (scriptLine content).length < bufsiz - offset) :
    ∃ x, interpreterScriptHashbangBuf (.ok content) b bufsiz offset =
        some (.ok (hashbangSize (hashbangWords ((scriptLine content).drop 2))), x) ∧
      (∃ rest, x.buf = b.take offset ++ copiedWords (hashbangWords ((scriptLine content).drop 2)) ++ rest) ∧ x.buf.length = bufsiz ∧
      ∀ w ∈ x.writes, w.1 < w.2 := by
  obtain ⟨t, rfl⟩ := hbang
  have hline : scriptLine (['#', '!'] ++ t) = '#' :: '!' :: t.takeWhile inLine := rfl
  have hwords : (scriptLine (['#', '!'] ++ t)).drop 2 = t.takeWhile inLine := rfl
  rw [hline, List.length_cons, List.length_cons] at hfits
  rw [hwords]
  obtain ⟨b', todo, hpokes, h0, h1, hat, hz, htodo⟩ := read_script hb hfits
  have hf : todo.length ≤ bufsiz := by
    have hlen := congrArg List.length hat.todo
    rw [List.length_drop, hat.size] at hlen
    omega
  obtain ⟨x, rest, hx, hat'⟩ := hat.line hz hf
  rw [htodo] at hat'
  have hd : x.d - offset - 1 = hashbangSize (hashbangWords (t.takeWhile inLine)) := by
    have hl := congrArg List.length hat'.out
    rw [List.length_take, List.length_append, List.length_take, length_copiedWords, hat'.size] at hl
    have hgap := hat'.gap
    have hin := hat'.inside
    omega
  refine ⟨x, ?_, ⟨x.buf.drop x.d, ?_⟩, hat'.size, hat'.behind⟩
  · show (if bufsiz ≤ offset then none else _) = _
    rw [if_neg (by omega)]
    show (pokes b offset ((['#', '!'] ++ t).take (bufsiz - offset - 1) ++ [nul])).bind _ = _
    rw [hpokes]
    show (if _ ∨ b'[offset]? ≠ some '#' ∨ b'[offset + 1]? ≠ some '!' then _ else _) = _
    rw [if_neg]
    · show (Scanners.line bufsiz ⟨b', offset, offset + 2, []⟩).bind _ = _
      rw [hx]
      show some (Except.ok (x.d - offset - 1), x) = _
      rw [hd]
    · rintro (h | h | h)
      · rw [List.length_take, List.length_append] at h
        simp at h
        omega
      · exact h h0
      · exact h h1
  · rw [← hat'.out, List.take_append_drop]

/-! ## The strings that are found again -/

def wordsVector (r : Str × Option Str) (path : Str) : Option (List Str) :=
  if r.1 = [] then none else some (r.1 :: (if r.2.getD [] = [] then [] else [r.2.getD []]) ++ [path])

theorem cstr_drop {pre s : List Char} {i : Nat} (rest : Str) (hpre : pre.length = i) (hs : nul ∉ s) :
    cstr ((pre ++ s ++ nul :: rest).drop i) = s := by
  rw [List.append_assoc, List.drop_left' hpre, cstr_append_nul _ _ hs]

/-- What the caller finds: the words, with the path behind them, and the end of the last of them. -/
structure Found (r : Str × Option Str) (path : Str) (b : List Char) (bufsiz offset : Nat) (v : Option (List InterpArg)) :
    Prop where
  texts : v.map (·.map (·.text b path)) = wordsVector r path
  behind : ∀ args, v = some args → offBehind b bufsiz (args.length - 1) offset =
    offset + ((args.map (·.text b path)).dropLast.map (·.length + 1)).sum

theorem found_one {word path : Str} {arg : Option Str} (hword : word ≠ []) (harg : arg.getD [] = [])
    (h : cstr (b.drop offset) = word) (hn : strnlen word (bufsiz - offset) = word.length) :
    Found (word, arg) path b bufsiz offset (some [.buf offset, .script]) where
  texts := by simp [wordsVector, hword, harg, InterpArg.text, h]
  behind := by
    intro args hargs
    obtain rfl := (Option.some.inj hargs).symm
    simp [offBehind, InterpArg.text, h, hn]
    omega

theorem found_two {word a path : Str} (hword : word ≠ []) (ha : a ≠ []) (h : cstr (b.drop offset) = word)
    (hn : strnlen word (bufsiz - offset) = word.length) (h' : cstr (b.drop (offset + word.length + 1)) = a)
    (hn' : strnlen a (bufsiz - (offset + word.length + 1)) = a.length) :
    Found (word, some a) path b bufsiz offset (some [.buf offset, .buf (offset + word.length + 1), .script]) where
  texts := by simp [wordsVector, hword, ha, InterpArg.text, h, h']
  behind := by
    intro args hargs
    obtain rfl := (Option.some.inj hargs).symm
    simp [offBehind, InterpArg.text, h, hn, h', hn']
    omega

theorem interpArgs_found {r : Str × Option Str} {pre rest : Str} (path : Str) (hpre : pre.length = offset) (h1 : nul ∉ r.1)
    (h2 : ∀ a, r.2 = some a → nul ∉ a) (hnil : r.1 = [] → r.2 = none) (hb : b = pre ++ copiedWords r ++ rest)
    (hlen : b.length = bufsiz) :
    ∃ v, interpArgs b bufsiz offset (hashbangSize r) = some v ∧ Found r path b bufsiz offset v := by
  obtain ⟨word, arg⟩ := r
  dsimp only at h1 h2 hnil
  by_cases hword : word = []
  · rw [hnil hword, hword]
    exact ⟨none, rfl, rfl, by simp⟩
  · have hpos : 0 < word.length := List.length_pos_iff.mpr hword
    have hsize := congrArg List.length hb
    rw [List.length_append, List.length_append, length_copiedWords, hpre, hlen] at hsize
    have hn : strnlen word (bufsiz - offset) = word.length := by
      refine Nat.min_eq_left ?_
      simp [hashbangSize] at hsize
      omega
    cases arg with
    | none =>
      have htext : cstr (b.drop offset) = word := by
        rw [hb, copiedWords]
        simpa using cstr_drop rest hpre h1
      refine ⟨some [.buf offset, .script], ?_, found_one hword rfl htext hn⟩
      rw [interpArgs, if_neg (by simp [hashbangSize]; omega), htext, hn]
      exact if_neg (by simp [hashbangSize])
    | some a =>
      have htext : cstr (b.drop offset) = word := by
        rw [hb, copiedWords]
        simpa using cstr_drop (a ++ nul :: rest) hpre h1
      have hpre' : (pre ++ word ++ [nul]).length = offset + word.length + 1 := by
        simp [hpre]
        omega
      have hb' : b = (pre ++ word ++ [nul]) ++ a ++ nul :: rest := by
        rw [hb, copiedWords]
        simp
      have htext' : cstr (b.drop (offset + word.length + 1)) = a := by
        rw [hb']
        exact cstr_drop rest hpre' (h2 a rfl)
      have hget : b[offset + word.length + 1]? = some ((a ++ [nul]).head (by simp)) := by
        rw [hb', List.append_assoc, List.getElem?_append_right (Nat.le_of_eq hpre'), hpre', Nat.sub_self]
        cases a with
        | nil => rfl
        | cons c a => rfl
      have hsiz : hashbangSize (word, some a) = word.length + (a.length + 1) := rfl
      rw [interpArgs, hsiz, if_neg (by omega), htext, hn]
      dsimp only
      rw [if_pos (by omega), hget]
      cases a with
      | nil => exact ⟨_, rfl, found_one hword rfl htext hn⟩
      | cons c a =>
        have hc : c ≠ nul := fun e => h2 _ rfl (e ▸ List.mem_cons_self)
        refine ⟨_, if_pos hc, found_two hword (by simp) htext hn htext' ?_⟩
        refine Nat.min_eq_left ?_
        simp [hashbangSize] at hsize ⊢
        omega

end

theorem blanks_only {s : Str} (h : (s.dropWhile isBlank).takeWhile (! isBlank ·) = []) : s.dropWhile isBlank = [] := by
  have hhead := List.head?_dropWhile_not isBlank s
  cases hv : s.dropWhile isBlank with
  | nil => rfl
  | cons c v =>
    rw [hv] at h hhead
    have hc : isBlank c = false := hhead
    rw [List.takeWhile_cons_of_pos (by simp [hc])] at h
    cases h

/-- The code's vector is that of Linux when the argument is one word. -/
theorem wordsVector_iff (content path : Str) :
    wordsVector (hashbangWords ((scriptLine content).drop 2)) path = linuxVector (scriptLine content) path ↔
      ∀ c ∈ optionalArg (scriptLine content), isBlank c = false := by
  have hline : ∀ c ∈ scriptLine content, inLine c = true := fun c hc => List.mem_takeWhile_imp hc
  rw [← firstWord_eq_iff]
  obtain ⟨h1, h2⟩ := hashbangWords_line hline
  unfold wordsVector linuxVector
  dsimp only
  rw [h1, h2]
  split
  · rename_i hname
    have hu := blanks_only hname
    refine iff_of_true rfl ?_
    unfold firstWord optionalArg
    rw [hu]
    rfl
  · constructor
    · intro h
      have h := List.append_cancel_right (List.cons.inj (Option.some.inj h)).2
      split at h
      · split at h
        · rename_i h₁ h₂
          rw [h₁, h₂]
        · cases h
      · split at h
        · cases h
        · exact (List.cons.inj h).1
    · intro h
      rw [h]

/-- A script whose line fits in the buffer is started as Linux does exactly when there is no blank inside the argument.
Whatever the line, no byte is overwritten that is still to be read, and `execve` steps over the strings of the vector. -/
theorem interpreterScript_linux {content path : Str} {b : List Char} {bufsiz offset : Nat} (hb : b.length = bufsiz)
    (hbang : ['#', '!'] <+: content) (hfits : (scriptLine content).length < bufsiz - offset) :
    ∃ v x, interpreterScriptBuf (.ok content) b bufsiz offset = some (v, x) ∧ (∀ w ∈ x.writes, w.1 < w.2) ∧
      (∀ args, v = some args → offBehind x.buf bufsiz (args.length - 1) offset =
        offset + ((args.map (·.text x.buf path)).dropLast.map (·.length + 1)).sum) ∧
      (v.map (·.map (·.text x.buf path)) = linuxVector (scriptLine content) path ↔
        ∀ c ∈ optionalArg (scriptLine content), isBlank c = false) := by
  obtain ⟨x, hx, ⟨rest, hbuf⟩, hlen, hwrites⟩ := interpreterScriptHashbangBuf_eq hb hbang hfits
  have hpre : (b.take offset).length = offset := by rw [List.length_take]; omega
  obtain ⟨h1, h2⟩ := ArenaWorld.nul_not_mem_hashbangWords ((scriptLine content).drop 2)
  obtain ⟨v, hv, hfound⟩ := interpArgs_found path hpre h1 h2 hashbangWords_nil hbuf hlen
  refine ⟨v, x, ?_, hwrites, hfound.behind, ?_⟩
  · rw [interpreterScriptBuf, hx]
    show (interpArgs x.buf bufsiz offset _).bind _ = _
    rw [hv]
    rfl
  · rw [hfound.texts]
    exact wordsVector_iff content path

/-- `#! /bin/sh  -e` at an offset of 3 in a buffer of 32 bytes. -/
theorem interpreterScript_linux_sh :
    ∃ v x, interpreterScriptBuf (.ok "#! /bin/sh  -e \nexit 1\n".toList) (List.replicate 32 'x') 32 3 = some (v, x) ∧
      v.map (·.map (·.text x.buf "/s".toList)) = linuxVector "#! /bin/sh  -e ".toList "/s".toList := by
  obtain ⟨v, x, hrun, -, -, hvector⟩ :=
    @interpreterScript_linux "#! /bin/sh  -e \nexit 1\n".toList "/s".toList (List.replicate 32 'x') 32 3 (by simp) (by decide)
      (by decide)
  have harg : optionalArg (scriptLine "#! /bin/sh  -e \nexit 1\n".toList) = ['-', 'e'] := by decide
  refine ⟨v, x, hrun, hvector.mpr ?_⟩
  rw [harg]
  simp [isBlank]

/-- `#!/bin/awk -v x` loses the second word of its argument. -/
theorem interpreterScript_loses :
    (interpreterScriptBuf (.ok "#!/bin/awk -v x\n".toList) (List.replicate 32 'x') 32 0).map
        (fun r => r.1.map (·.map (·.text r.2.buf "/s".toList))) = some (some ["/bin/awk".toList, "-v".toList, "/s".toList]) ∧
      linuxVector (scriptLine "#!/bin/awk -v x\n".toList) "/s".toList =
        some ["/bin/awk".toList, "-v x".toList, "/s".toList] := by
  constructor
  · decide
  · decide

end Iamroot
