import Iamroot.Truncation

/-!
# Temporary names

`mkostemps`, `mkdtemp` and `mktemp` resolve the template into a buffer, have the
name made in the buffer, and copy as many characters as the last component of
the template has, from the end of the buffer to the end of the template. The
letters that the C library draws, and whether it fails, are an outcome.
-/

namespace Iamroot

def xs : Str := ['X', 'X', 'X', 'X', 'X', 'X']

structure Letters where
  text : Str
  length_eq : text.length = 6
  plain : ∀ c ∈ text, c.isAlphanum = true

inductive Drawing where
  | failed (e : Errno)
  | made (fd : Nat) (r : Letters)

/-- The C library takes the template: `suffixlen` characters, and the X's before them. -/
def accepts (suffixlen : Nat) (t : Str) : Bool :=
  decide (suffixlen + 6 ≤ t.length) && (t.drop (t.length - (suffixlen + 6))).take 6 == xs

def named (suffixlen : Nat) (r t : Str) : Str :=
  t.take (t.length - (suffixlen + 6)) ++ r ++ t.drop (t.length - suffixlen)

/-- The functions of the C library: a descriptor, and the name in the buffer. -/
def nextMake (suffixlen : Nat) (o : Drawing) (buf : Str) : Except Errno (Nat × Str) :=
  if accepts suffixlen buf then
    match o with
    | .failed e => .error e
    | .made fd r => .ok (fd, named suffixlen r.text buf)
  else .error .EINVAL

/-- `strncpy(&path[__strlen(path)-len], &buf[__strlen(buf)-len], len)`. -/
def copyTail (path buf : Str) : Ret Str :=
  let len := strlen (basename path)
  if strlen buf < len then .fault
  else
    .done (path.take (strlen path - len) ++ (buf.drop (strlen buf - len)).take len ++ path.drop (strlen path - len + len))

/-- What is returned: `own` is a pointer to the buffer of the function, which is gone. -/
inductive NameResult where
  | fd (n : Nat)
  | minusOne
  | null
  | template
  | own
  deriving DecidableEq

section
variable (h : Host) (env : Option Str) (re : Option (Str → Bool)) (fuel : Nat) (errno : Option Errno)

/-- What the three functions have in common: the value returned, and the template after the call. -/
def makeName (suffixlen : Nat) (o : Drawing) (unresolved : NameResult) (failed : Ret (NameResult × Str)) (made : Nat → NameResult)
    (path : Str) : Ret (NameResult × Str) :=
  match pathResolution h env re fuel pathMax 0 errno atFdcwd path with
  | .done buf =>
    match nextMake suffixlen o buf with
    | .ok (fd, buf) => (copyTail path buf).bind fun path => .done (made fd, path)
    | .error _ => failed
  | .fail _ => .done (unresolved, path)
  | .fault => .fault
  | .unfinished => .unfinished

def mkostemps (suffixlen : Nat) (o : Drawing) (path : Str) : Ret (NameResult × Str) :=
  makeName h env re fuel errno suffixlen o .minusOne (.done (.minusOne, path)) .fd path

/-- The first character of what `next_mkdtemp` returns is read, and it returns a null pointer when it fails. -/
def mkdtemp (o : Drawing) (path : Str) : Ret (NameResult × Str) :=
  makeName h env re fuel errno 0 o .null .fault (fun _ => .template) path

/-- `next_mktemp` empties the buffer, and returns it, when it fails. -/
def mktemp (o : Drawing) (path : Str) : Ret (NameResult × Str) :=
  makeName h env re fuel errno 0 o .null (.done (.own, path)) (fun _ => .template) path

inductive Maker where
  | mkostemps (suffixlen : Nat)
  | mkdtemp
  | mktemp

namespace Maker

def suffixlen : Maker → Nat
  | .mkostemps n => n
  | .mkdtemp | .mktemp => 0

def run : Maker → Drawing → Str → Ret (NameResult × Str)
  | .mkostemps n => Iamroot.mkostemps h env re fuel errno n
  | .mkdtemp => Iamroot.mkdtemp h env re fuel errno
  | .mktemp => Iamroot.mktemp h env re fuel errno

def success : Maker → Nat → NameResult
  | .mkostemps _, fd => .fd fd
  | .mkdtemp, _ | .mktemp, _ => .template

def failure : Maker → NameResult
  | .mkostemps _ => .minusOne
  | .mkdtemp | .mktemp => .null

end Maker

/-- In the host `h'` that the call leaves, a template with a name resolves to the path in which the name was
made. A call that fails is reported, and leaves the template. -/
def WritesBack (h' : Host) (m : Maker) (o : Drawing) (path : Str) : Prop :=
  ∃ v path', m.run h env re fuel errno o path = .done (v, path') ∧
    match pathResolution h env re fuel pathMax 0 errno atFdcwd path with
    | .done buf =>
      match nextMake m.suffixlen o buf with
      | .ok (fd, buf) => v = m.success fd ∧ (∃ r : Letters, path' = named m.suffixlen r.text path) ∧
        pathResolution h' env re fuel pathMax 0 errno atFdcwd path' = .done buf
      | .error _ => v = m.failure ∧ path' = path
    | _ => v = m.failure ∧ path' = path

/-- X's that are not in the last component are not copied. -/
def written (suffixlen : Nat) (r path : Str) : Str :=
  if suffixlen + 6 ≤ (basename path).length then named suffixlen r path else path

/-- A path that resolves ends in the last component of the template, and what is copied to the template resolves,
once the call is made, to that path with the letters in it. A call that fails is one of `mkostemps`. -/
def KeepsName (h' : Host) (m : Maker) (o : Drawing) (path : Str) : Prop :=
  (∃ e, pathResolution h env re fuel pathMax 0 errno atFdcwd path = .fail e) ∨
    ∃ buf, pathResolution h env re fuel pathMax 0 errno atFdcwd path = .done buf ∧
      match accepts m.suffixlen buf, o with
      | true, .made _ r => basename path <:+ buf ∧
        pathResolution h' env re fuel pathMax 0 errno atFdcwd (written m.suffixlen r.text path) =
          .done (named m.suffixlen r.text buf)
      | _, _ => ∃ n, m = .mkostemps n

end

/-! ## Templates -/

section
variable {suffixlen : Nat} {r t a b : Str}

theorem accepts_iff : accepts suffixlen t = true ↔ ∃ a b, t = a ++ xs ++ b ∧ b.length = suffixlen := by
  unfold accepts
  rw [Bool.and_eq_true, decide_eq_true_eq, beq_iff_eq]
  constructor
  · intro ⟨hlen, hx⟩
    refine ⟨t.take (t.length - (suffixlen + 6)), t.drop (t.length - suffixlen), ?_, ?_⟩
    · have hd : t.length - suffixlen = t.length - (suffixlen + 6) + 6 := by omega
      rw [← hx, hd, ← List.drop_drop, List.append_assoc, List.take_append_drop, List.take_append_drop]
    · rw [List.length_drop]
      omega
  · intro ⟨a, b, ht, hb⟩
    have hlen : t.length = a.length + (suffixlen + 6) := by
      rw [ht, ← hb]
      simp only [List.length_append, xs, List.length_cons, List.length_nil]
      omega
    have hk : t.length - (suffixlen + 6) = a.length := by omega
    refine ⟨by omega, ?_⟩
    rw [hk, ht, List.append_assoc, List.drop_left]
    rfl

theorem named_split {w : Str} (hw : w.length = 6) (hb : b.length = suffixlen) :
    named suffixlen r (a ++ w ++ b) = a ++ r ++ b := by
  have hlen : (a ++ w ++ b).length = a.length + (suffixlen + 6) := by
    rw [List.length_append, List.length_append, hw, hb]
    omega
  have hk : (a ++ w ++ b).length - (suffixlen + 6) = a.length := by omega
  have hs : (a ++ w ++ b).length - suffixlen = (a ++ w).length := by
    have : (a ++ w).length = a.length + 6 := by rw [List.length_append, hw]
    omega
  rw [named, hk, hs, List.drop_left, List.append_assoc a w b, List.take_left]

theorem named_xs (ht : accepts suffixlen t = true) : named suffixlen xs t = t := by
  obtain ⟨a, b, rfl, hb⟩ := accepts_iff.mp ht
  exact named_split rfl hb

theorem length_named (ht : accepts suffixlen t = true) (hr : r.length = 6) : (named suffixlen r t).length = t.length := by
  obtain ⟨a, b, rfl, hb⟩ := accepts_iff.mp ht
  rw [named_split rfl hb]
  simp only [List.length_append, hr]
  rfl

theorem named_inj {t' r' : Str} (ht : accepts suffixlen t = true) (ht' : accepts suffixlen t' = true) (hlen : t.length = t'.length)
    (hr : r.length = r'.length) (he : named suffixlen r t = named suffixlen r' t') : t = t' := by
  obtain ⟨a, b, rfl, hb⟩ := accepts_iff.mp ht
  obtain ⟨a', b', rfl, hb'⟩ := accepts_iff.mp ht'
  rw [named_split rfl hb, named_split rfl hb'] at he
  have ha : a.length = a'.length := by
    simp only [List.length_append, hb, hb'] at hlen
    omega
  obtain ⟨h1, h2⟩ := List.append_inj he (by rw [List.length_append, List.length_append, ha, hr])
  rw [(List.append_inj h1 ha).1, h2]

theorem named_append (hb : suffixlen + 6 ≤ b.length) (r : Str) : named suffixlen r (a ++ b) = a ++ named suffixlen r b := by
  have h1 : (a ++ b).length - (suffixlen + 6) = a.length + (b.length - (suffixlen + 6)) := by
    rw [List.length_append]
    omega
  have h2 : (a ++ b).length - suffixlen = a.length + (b.length - suffixlen) := by
    rw [List.length_append]
    omega
  rw [named, named, h1, h2, List.take_length_add_append, List.drop_length_add_append, List.append_assoc, List.append_assoc,
    List.append_assoc]

theorem accepts_append (hb : suffixlen + 6 ≤ b.length) : accepts suffixlen (a ++ b) = accepts suffixlen b := by
  have h1 : (a ++ b).length - (suffixlen + 6) = a.length + (b.length - (suffixlen + 6)) := by
    rw [List.length_append]
    omega
  have h2 : decide (suffixlen + 6 ≤ (a ++ b).length) = decide (suffixlen + 6 ≤ b.length) := by
    rw [List.length_append, decide_eq_true hb]
    simp only [decide_eq_true_eq]
    omega
  rw [accepts, accepts, h1, h2, List.drop_length_add_append]

theorem named_append_short (hb : b.length ≤ suffixlen) (r : Str) :
    named suffixlen r (a ++ b) = named (suffixlen - b.length) r a ++ b := by
  have h1 : (a ++ b).length - (suffixlen + 6) = a.length - (suffixlen - b.length + 6) := by
    rw [List.length_append]
    omega
  have h2 : (a ++ b).length - suffixlen = a.length - (suffixlen - b.length) := by
    rw [List.length_append]
    omega
  rw [named, named, h1, h2, List.take_append_of_le_length (by omega), List.drop_append_of_le_length (by omega)]
  simp only [List.append_assoc]

/-- The last component has all of the X's, or nothing but characters from after them. -/
theorem basename_cases (ht : accepts suffixlen t = true) :
    suffixlen + 6 ≤ (basename t).length ∨ (basename t).length ≤ suffixlen := by
  obtain ⟨a, b, rfl, hb⟩ := accepts_iff.mp ht
  have hlen : (basename (a ++ xs ++ b)).length = ((b.reverse ++ (xs ++ a.reverse)).takeWhile (· ≠ '/')).length := by
    rw [basename, List.rtakeWhile, List.length_reverse, List.reverse_append, List.reverse_append]
    rfl
  rw [hlen, List.takeWhile_append]
  by_cases hall : (b.reverse.takeWhile (· ≠ '/')).length = b.reverse.length
  · left
    have hx : (xs ++ a.reverse).takeWhile (· ≠ '/') = xs ++ a.reverse.takeWhile (· ≠ '/') :=
      List.takeWhile_append_of_pos (by simp [xs])
    rw [if_pos hall, hx, List.length_append, List.length_append, List.length_reverse, hb]
    exact Nat.add_le_add_left (Nat.le_add_right _ _) _
  · right
    rw [if_neg hall, ← hb, ← b.length_reverse]
    exact (List.takeWhile_prefix _).length_le

theorem basename_suffix (path : Str) : basename path <:+ path := List.rtakeWhile_suffix _ _

theorem accepts_basename (ht : accepts suffixlen t = true) (hx : suffixlen + 6 ≤ (basename t).length) :
    accepts suffixlen (basename t) = true := by
  obtain ⟨d, hd⟩ := basename_suffix t
  rw [← accepts_append hx (a := d), hd]
  exact ht

theorem copyTail_eq {path d e l : Str} (hp : d ++ basename path = path) (hs : path.length < pathMax)
    (hl : l.length = (basename path).length) (hle : (e ++ l).length < pathMax) : copyTail path (e ++ l) = .done (d ++ l) := by
  have hlen : path.length = d.length + (basename path).length := by
    have := congrArg List.length hp
    rw [List.length_append] at this
    exact this.symm
  have hlb : strlen (basename path) = (basename path).length := strlen_of_lt (by omega)
  have he : (e ++ l).length = e.length + (basename path).length := by rw [List.length_append, hl]
  have h1 : path.length - (basename path).length = d.length := by omega
  have h2 : (e ++ l).length - (basename path).length = e.length := by omega
  have h3 : path.take d.length = d := by rw [← hp, List.take_left]
  have h4 : path.drop (d.length + (basename path).length) = [] := by
    rw [← hlen, List.drop_length]
  unfold copyTail
  rw [hlb, strlen_of_lt hs, strlen_of_lt hle, if_neg (by omega)]
  rw [h1, h2, h3, h4, List.drop_left, List.append_nil, List.take_of_length_le (by omega)]

theorem copyTail_short {path buf : Str} (hs : path.length < pathMax) (hb : buf.length < pathMax)
    (hlt : buf.length < (basename path).length) : copyTail path buf = .fault := by
  have hlb : strlen (basename path) = (basename path).length :=
    strlen_of_lt (Nat.lt_of_le_of_lt (basename_suffix path).length_le hs)
  rw [copyTail, hlb, strlen_of_lt hb, if_pos hlt]

section
variable {path buf : Str} (ht : accepts suffixlen path = true) (hb : accepts suffixlen buf = true) (hs : path.length < pathMax)
  (hl : buf.length < pathMax)
include ht hb hs hl

/-- The last component of the template ends the path: the X's are replaced, where they are in it. -/
theorem copyTail_suffix (hr : r.length = 6) (hsuf : basename path <:+ buf) :
    copyTail path (named suffixlen r buf) = .done (written suffixlen r path) := by
  obtain ⟨d, hd⟩ := basename_suffix path
  obtain ⟨e, he⟩ := hsuf
  have hlen : (named suffixlen r buf).length < pathMax := by
    rw [length_named hb hr]
    exact hl
  unfold written
  rcases basename_cases ht with hx | hx
  · have hacc := accepts_basename ht hx
    rw [if_pos hx, ← congrArg (named suffixlen r) hd, named_append hx]
    rw [← he, named_append hx] at hlen ⊢
    exact copyTail_eq hd hs (length_named hacc hr) hlen
  · rw [if_neg (by omega)]
    rw [← he, named_append_short hx] at hlen ⊢
    rw [copyTail_eq hd hs rfl hlen, hd]

/-- What is copied makes a name of the template: the last component of the template ends the path. -/
theorem suffix_of_copyTail {r' : Str} (hr : r.length = 6) (hr' : r'.length = 6)
    (hc : copyTail path (named suffixlen r buf) = .done (named suffixlen r' path)) : basename path <:+ buf := by
  obtain ⟨d, hd⟩ := basename_suffix path
  have hlen : (named suffixlen r buf).length = buf.length := length_named hb hr
  by_cases hlt : buf.length < (basename path).length
  · rw [copyTail_short hs (by omega) (by omega)] at hc
    cases hc
  obtain ⟨e, l, rfl, hel⟩ : ∃ e l, buf = e ++ l ∧ l.length = (basename path).length :=
    ⟨_, _, (List.take_append_drop (buf.length - (basename path).length) buf).symm, by rw [List.length_drop]; omega⟩
  refine ⟨e, congrArg (e ++ ·) ?_⟩
  rcases basename_cases ht with hx | hx
  · have hacc := accepts_basename ht hx
    have hx' : suffixlen + 6 ≤ l.length := hel ▸ hx
    have hacc' : accepts suffixlen l = true := by rwa [accepts_append hx'] at hb
    rw [named_append hx'] at hc hlen
    rw [copyTail_eq hd hs ((length_named hacc' hr).trans hel) (by omega), ← congrArg (named suffixlen r') hd, named_append hx] at hc
    exact named_inj hacc hacc' hel.symm (hr'.trans hr.symm) (List.append_cancel_left (Ret.done.inj hc)).symm
  · have hx' : l.length ≤ suffixlen := hel ▸ hx
    rw [named_append_short hx'] at hc hlen
    rw [copyTail_eq hd hs hel (by omega), ← congrArg (named suffixlen r') hd, named_append_short hx] at hc
    exact (List.append_inj_right' (Ret.done.inj hc) hel).symm

end

end

/-! ## The calls -/

section
variable {h h' : Host} {env : Option Str} {re : Option (Str → Bool)} {fuel : Nat} {errno : Option Errno} {m : Maker}
  {o : Drawing} {path buf : Str}

def Maker.lost (path : Str) : Maker → Ret (NameResult × Str)
  | .mkostemps _ => .done (.minusOne, path)
  | .mkdtemp => .fault
  | .mktemp => .done (.own, path)

theorem Maker.run_eq (m : Maker) (o : Drawing) (path : Str) : m.run h env re fuel errno o path =
    makeName h env re fuel errno m.suffixlen o m.failure (m.lost path) m.success path := by
  cases m <;> rfl

theorem Maker.lost_iff (m : Maker) (path : Str) : m.lost path = .done (m.failure, path) ↔ ∃ n, m = .mkostemps n := by
  cases m <;> simp [lost, failure]

theorem length_of_resolved (hr : pathResolution h env re fuel pathMax 0 errno atFdcwd path = .done buf) :
    path.length < pathMax ∧ buf.length < pathMax := by
  refine ⟨?_, pathResolution2_length (by decide) hr⟩
  by_contra hs
  have hlen : strnlen path pathMax = pathMax := by
    unfold strnlen
    omega
  unfold pathResolution pathResolution2 at hr
  rw [if_pos hlen] at hr
  cases hr

theorem keepsName_made {fd : Nat} {r : Letters} (hr : pathResolution h env re fuel pathMax 0 errno atFdcwd path = .done buf)
    (ha : accepts m.suffixlen buf = true) (hsuf : basename path <:+ buf)
    (hres : pathResolution h' env re fuel pathMax 0 errno atFdcwd (written m.suffixlen r.text path) =
      .done (named m.suffixlen r.text buf)) : KeepsName h env re fuel errno h' m (.made fd r) path := by
  refine Or.inr ⟨buf, hr, ?_⟩
  rw [ha]
  exact ⟨hsuf, hres⟩

theorem mkdtemp_failed {e : Errno} (hr : pathResolution h env re fuel pathMax 0 errno atFdcwd path = .done buf)
    (hm : nextMake 0 o buf = .error e) : mkdtemp h env re fuel errno o path = .fault := by
  rw [mkdtemp, makeName, hr]
  simp only [hm]

/-- The calls of which the template is written back. -/
theorem writesBack_iff (h h' : Host) (env : Option Str) (re : Option (Str → Bool)) (fuel : Nat) (errno : Option Errno)
    (m : Maker) (o : Drawing) (path : Str) (ht : accepts m.suffixlen path = true) :
    WritesBack h env re fuel errno h' m o path ↔ KeepsName h env re fuel errno h' m o path := by
  unfold WritesBack KeepsName
  rw [m.run_eq, makeName]
  cases hr : pathResolution h env re fuel pathMax 0 errno atFdcwd path with
  | fail e => simp
  | fault => simp
  | unfinished => simp
  | done buf =>
    obtain ⟨hs, hl⟩ := length_of_resolved hr
    have hlost : (∃ v path', m.lost path = .done (v, path') ∧ v = m.failure ∧ path' = path) ↔ ∃ n, m = .mkostemps n := by
      rw [← m.lost_iff path]
      constructor
      · rintro ⟨v, path', hf, rfl, rfl⟩
        exact hf
      · exact fun hf => ⟨_, _, hf, rfl, rfl⟩
    simp only [reduceCtorEq, exists_false, false_or, Ret.done.injEq, exists_eq_left']
    cases ha : accepts m.suffixlen buf with
    | false => simpa [nextMake, ha] using hlost
    | true =>
      cases o with
      | failed e => simpa [nextMake, ha] using hlost
      | made fd r =>
        simp only [nextMake, ha, if_true]
        constructor
        · rintro ⟨v, path', hv, -, ⟨x, rfl⟩, hres⟩
          obtain ⟨p, hcopy, hp⟩ := Ret.of_bind hv
          obtain rfl := congrArg Prod.snd (Ret.done.inj hp)
          have hsuf := suffix_of_copyTail ht ha hs hl r.length_eq x.length_eq hcopy
          rw [copyTail_suffix ht ha hs hl r.length_eq hsuf] at hcopy
          rw [Ret.done.inj hcopy]
          exact ⟨hsuf, hres⟩
        · rintro ⟨hsuf, hres⟩
          refine ⟨_, _, by rw [copyTail_suffix ht ha hs hl r.length_eq hsuf]; rfl, rfl, ?_, hres⟩
          unfold written
          split
          · exact ⟨r, rfl⟩
          · exact ⟨⟨xs, rfl, by simp [xs]⟩, (named_xs ht).symm⟩

end

theorem resolves_below {fs : FileSystem} {p : Str} (q : Str)
    (hp : p.length < pathMax ∧ (textOf (some ['/', 'r']) p).length < pathMax ∧ p ≠ procRoot ∧ ¬ devFd <+: p)
    (hq : q.length < pathMax)
    (h1 : (walkText (fs.host [] fun _ => none) (some ['/', 'r']) 10 (pathSanitize (textOf (some ['/', 'r']) p)) 0).map
      (Reading.absolute (fs.host [] fun _ => none)) = some (.done q))
    (h2 : (walkText (fs.host [] fun _ => none) (some ['/', 'r']) 10 q 0).map (Reading.absolute (fs.host [] fun _ => none)) =
      some (.done q)) :
    pathResolution (fs.host [] fun _ => none) (some ['/', 'r']) none 10 pathMax 0 none atFdcwd p = .done q :=
  pathResolution_text ⟨hp.1, fun _ => hp.2.2, fun _ => by simp [ignore]⟩ (Nat.le_refl _) hp.2.1 (by decide) h1 ⟨hq, hq⟩
    (fun _ => by simp [ignore]) h2

def emptyRoot : FileSystem := .ofList [([['r']], .dir)] (by decide)

/-- The host refuses to make the directory: the null pointer is read. -/
theorem mkdtemp_faults : mkdtemp (emptyRoot.host [] fun _ => none) (some ['/', 'r']) none 10 none (.failed .EACCES)
      ['/', 't', 'X', 'X', 'X', 'X', 'X', 'X'] = .fault ∧
    ¬ WritesBack (emptyRoot.host [] fun _ => none) (some ['/', 'r']) none 10 none (emptyRoot.host [] fun _ => none)
      .mkdtemp (.failed .EACCES) ['/', 't', 'X', 'X', 'X', 'X', 'X', 'X'] := by
  have hf : mkdtemp (emptyRoot.host [] fun _ => none) (some ['/', 'r']) none 10 none (.failed .EACCES)
      ['/', 't', 'X', 'X', 'X', 'X', 'X', 'X'] = .fault :=
    mkdtemp_failed (resolves_below ['/', 'r', '/', 't', 'X', 'X', 'X', 'X', 'X', 'X'] (by decide) (by decide)
      (by decide) (by decide)) rfl
  refine ⟨hf, ?_⟩
  rintro ⟨v, path', hv, -⟩
  cases hf.symm.trans hv

end Iamroot
