import Mathlib.Algebra.Group.Int.Defs
import Iamroot.Mode
import Iamroot.Groups

/-!
# The mask and the mode of a new file

`umask` gives the host a mask that leaves a new file readable and writable to
the real user, and keeps the guest's mask in `IAMROOT_UMASK`, where there is
room for three octal digits. The host takes the mask off the mode of a new
file, but the attribute that `__set_mode` gives it holds the mode as it was
asked for, and nothing takes the guest's mask off that.
-/

namespace Iamroot

def strtolOctal (s : Str) : Int :=
  let (negative, s) := sign (s.dropWhile isSpace)
  let n := (s.takeWhile (digitValue · < 8)).foldl (fun n c => 8 * n + digitValue c) 0
  if negative then max (-2 ^ 63) (-n) else min (2 ^ 63 - 1) n

def getumask (env : Option Str) : Word := BitVec.ofInt 32 (strtolOctal (env.getD ['0', '2', '2']))

def setumask (nomem : Option Errno) (env : Option Str) (mask : Word) : Option Str :=
  match snprintf (Nat.toDigits 8 mask.toNat) 4 with
  | .error _ => env
  | .ok buf => if nomem.isSome then env else some buf

def nextUmask (fs : Files) (mask : Word) : Files := { fs with umask := mask &&& 0o777 }

/-- The mask that is returned, the host after the call, and the variable. -/
def umask (fs : Files) (nomem : Option Errno) (env : Option Str) (mask : Word) : Word × Files × Option Str :=
  (getumask env, nextUmask fs (mask &&& ~~~0o600), setumask nomem env mask)

/-! ## The text of a mask -/

theorem length_octal (n : Nat) : (Nat.toDigits 8 n).length < 4 ↔ n < 0o1000 := by
  rw [Nat.lt_succ_iff, Nat.length_toDigits_le_iff (by decide) (by decide)]

theorem digitValue_octal {n : Nat} : ∀ c ∈ Nat.toDigits 8 n, digitValue c < 8 := by
  have hchar : ∀ m, m < 8 → digitValue (Nat.digitChar m) < 8 := by decide
  induction n using Nat.strong_induction_on with
  | _ n ih =>
    rw [Nat.toDigits_eq_if (by decide)]
    split
    · rename_i hlt
      intro c hc
      rw [List.mem_singleton.mp hc]
      exact hchar n hlt
    · intro c hc
      rcases List.mem_append.mp hc with h | h
      · exact ih (n / 8) (by omega) c h
      · rw [List.mem_singleton.mp h]
        exact hchar _ (Nat.mod_lt _ (by decide))

theorem strtolOctal_toDigits {n : Nat} (h : n < 0o1000) : strtolOctal (Nat.toDigits 8 n) = n := by
  have hdigit : ∀ c ∈ Nat.toDigits 8 n, c.isDigit = true := fun c hc =>
    Nat.isDigit_of_mem_toDigits (by decide) (by decide) hc
  obtain ⟨c, s, hs⟩ := List.exists_cons_of_ne_nil (Nat.toDigits_ne_nil (n := n) (b := 8))
  have hc : c.isDigit = true := hdigit c (hs ▸ List.mem_cons_self)
  have hdrop : (Nat.toDigits 8 n).dropWhile isSpace = Nat.toDigits 8 n := by
    rw [hs, List.dropWhile_cons_of_neg (by simp [isSpace_isDigit hc])]
  have hsign : sign (Nat.toDigits 8 n) = (false, Nat.toDigits 8 n) := by
    rw [hs]; exact sign_isDigit hc s
  have htake : (Nat.toDigits 8 n).takeWhile (digitValue · < 8) = Nat.toDigits 8 n :=
    List.takeWhile_eq_self_iff.mpr fun c hc => decide_eq_true (digitValue_octal c hc)
  unfold strtolOctal
  rw [hdrop, hsign]
  dsimp only
  rw [htake, foldl_digits 0 hdigit, Nat.ofDigitChars_toDigits (by decide) (by decide), if_neg Bool.false_ne_true]
  omega

/-- A mask of three digits is what the next call returns; one with more is not kept. -/
theorem getumask_setumask (env : Option Str) (mask : Word) :
    getumask (setumask none env mask) = if mask.toNat < 0o1000 then mask else getumask env := by
  unfold setumask snprintf
  by_cases h : mask.toNat < 0o1000
  · rw [if_pos h, if_pos ((length_octal _).mpr h)]
    show BitVec.ofInt 32 (strtolOctal (Nat.toDigits 8 mask.toNat)) = mask
    rw [strtolOctal_toDigits h, BitVec.ofInt_natCast, BitVec.ofNat_toNat, BitVec.setWidth_eq]
  · rw [if_neg h, if_neg fun h' => h ((length_octal _).mp h')]

/-! ## Bits -/

section
variable {c p b : Word}

theorem or_of_and_ne (m c : Word) : (if m &&& c ≠ c then m ||| c else m) = m ||| c := by
  split
  · rfl
  · rename_i h
    rw [not_not] at h
    ext i hi
    have h := congrArg (·[i]) h
    simp only [BitVec.getElem_and, BitVec.getElem_or] at h ⊢
    grind

theorem and_not_of_and_ne (m b : Word) : (if m &&& b ≠ 0 then m &&& ~~~b else m) = m &&& ~~~b := by
  split
  · rfl
  · rename_i h
    ext i hi
    have h := congrArg (·[i]) (not_not.mp h)
    simp only [BitVec.getElem_and, BitVec.getElem_not, BitVec.ofNat_eq_ofNat, BitVec.getElem_zero] at h ⊢
    grind

theorem set_clear_eq_iff (hcb : c &&& b = 0) (m : Word) : (m ||| c) &&& ~~~b = m ↔ m &&& c = c ∧ m &&& b = 0 := by
  constructor
  · intro h
    constructor
    · ext i hi
      have h := congrArg (·[i]) h
      have hcb := congrArg (·[i]) hcb
      simp only [BitVec.getElem_and, BitVec.getElem_or, BitVec.getElem_not, BitVec.ofNat_eq_ofNat,
        BitVec.getElem_zero] at h hcb ⊢
      grind
    · rw [← h, BitVec.and_assoc, BitVec.and_comm (~~~b), BitVec.and_not_self]
      exact BitVec.and_zero
  · intro h
    ext i hi
    have h1 := congrArg (·[i]) h.1
    have h2 := congrArg (·[i]) h.2
    simp only [BitVec.getElem_and, BitVec.getElem_or, BitVec.getElem_not, BitVec.ofNat_eq_ofNat,
      BitVec.getElem_zero] at h1 h2 ⊢
    grind

theorem mask_eq_iff (hcp : c &&& p = c) (m u : Word) :
    (m &&& ~~~(u &&& ~~~c &&& p)) &&& p = (m &&& ~~~u) &&& p ↔ m &&& u &&& c = 0 := by
  constructor
  · intro h
    ext i hi
    have h := congrArg (·[i]) h
    have hcp := congrArg (·[i]) hcp
    simp only [BitVec.getElem_and, BitVec.getElem_not, BitVec.ofNat_eq_ofNat, BitVec.getElem_zero] at h hcp ⊢
    grind
  · intro h
    ext i hi
    have h := congrArg (·[i]) h
    have hcp := congrArg (·[i]) hcp
    simp only [BitVec.getElem_and, BitVec.getElem_not, BitVec.ofNat_eq_ofNat, BitVec.getElem_zero] at h hcp ⊢
    grind

theorem unmasked_eq_iff (m u p : Word) : m &&& p = (m &&& ~~~u) &&& p ↔ m &&& u &&& p = 0 := by
  constructor
  · intro h
    ext i hi
    have h := congrArg (·[i]) h
    simp only [BitVec.getElem_and, BitVec.getElem_not, BitVec.ofNat_eq_ofNat, BitVec.getElem_zero] at h ⊢
    grind
  · intro h
    ext i hi
    have h := congrArg (·[i]) h
    simp only [BitVec.getElem_and, BitVec.getElem_not, BitVec.ofNat_eq_ofNat, BitVec.getElem_zero] at h ⊢
    grind

end

theorem warnAndSetUserMode_eq (m user : Word) : warnAndSetUserMode m user = (m ||| user) &&& ~~~(sIsuid ||| sIsgid) := by
  unfold warnAndSetUserMode
  dsimp only
  rw [or_of_and_ne, and_not_of_and_ne, and_not_of_and_ne, BitVec.and_assoc, BitVec.not_or]

theorem warnAndSetUserMode_self_iff (m : Word) :
    m = warnAndSetUserMode m 0o600 ↔ m &&& 0o600 = 0o600 ∧ m &&& (sIsuid ||| sIsgid) = 0 := by
  rw [warnAndSetUserMode_eq, eq_comm]
  exact set_clear_eq_iff (by decide) m

theorem perm_and_congr {a b : Word} (h : perm a = perm b) (x : Word) : perm (a &&& x) = perm (b &&& x) := by
  unfold perm at h ⊢
  rw [BitVec.and_assoc, BitVec.and_comm x, ← BitVec.and_assoc, h, BitVec.and_assoc, BitVec.and_comm 0o777, ← BitVec.and_assoc]

/-! ## What is seen of a new file -/

def hostMask (mask : Word) : Word := mask &&& ~~~0o600 &&& 0o777

/-- The condition on the mode and on the mask: the host's mask is all the guest's where the
host's mode is what the file shows, and takes nothing off the mode where the attribute is. -/
def MaskTaken (m mask : Word) : Prop :=
  if m &&& 0o600 = 0o600 ∧ m &&& (sIsuid ||| sIsgid) = 0 ∨ m = minusOne then mask &&& 0o600 = 0
  else m &&& mask &&& 0o777 = 0

instance (m mask : Word) : Decidable (MaskTaken m mask) := by
  unfold MaskTaken; infer_instance

theorem afterSet_create_iff (m mask : Word) :
    afterSet (warnAndSetUserMode m 0o600 &&& ~~~hostMask mask) m (warnAndSetUserMode m 0o600) = perm (m &&& ~~~mask) ↔
      MaskTaken m mask := by
  have hhost : m &&& 0o600 = 0o600 → perm (warnAndSetUserMode m 0o600) = perm m →
      (perm (warnAndSetUserMode m 0o600 &&& ~~~hostMask mask) = perm (m &&& ~~~mask) ↔ mask &&& 0o600 = 0) := by
    intro hm hp
    rw [perm_and_congr hp]
    refine (mask_eq_iff (by decide) m mask).trans ?_
    rw [BitVec.and_comm m, BitVec.and_assoc, hm]
  unfold MaskTaken afterSet
  by_cases h : m = warnAndSetUserMode m 0o600
  · have h' := (warnAndSetUserMode_self_iff m).mp h
    rw [if_pos (Or.inl h), if_pos (Or.inl h')]
    exact hhost h'.1 (congrArg perm h.symm)
  · have h' : ¬ (m &&& 0o600 = 0o600 ∧ m &&& (sIsuid ||| sIsgid) = 0) := fun h' => h ((warnAndSetUserMode_self_iff m).mpr h')
    by_cases hm : m = minusOne
    · rw [if_pos (Or.inr hm), if_pos (Or.inr hm)]
      exact hhost (by rw [hm]; decide) (by rw [hm]; exact perm_warn_all false)
    · rw [if_neg fun o => o.elim h hm, if_neg fun o => o.elim h' hm]
      exact unmasked_eq_iff m mask 0o777

/-- The call is to make a file with the mode `m`, under a name that nothing has. -/
def ModeCall.Creates (resolve : Resolve) (fs : Files) (m : Word) (c : ModeCall) : Prop :=
  ∃ buf, fs.names buf = none ∧
    ((∃ oflags, oflags &&& oCreat ≠ 0 ∧ c.resolved resolve fs = some (.open_ buf oflags m)) ∨
      c.resolved resolve fs = some (.mkdir buf m))

theorem nextOpen_made {fs : Files} {buf : Str} {oflags mode : Word} {v : Option Errno} (hb : fs.names buf = none)
    (hr : 0 ≤ (nextOpen fs buf oflags mode v).2) : v = none ∧ buf ≠ [] := by
  cases v with
  | some e => exact absurd hr (show ¬ (0 : Int) ≤ -1 by decide)
  | none =>
    refine ⟨rfl, fun he => ?_⟩
    rw [he] at hb hr
    simp only [nextOpen, hb, ne_eq, not_true, and_false, if_false] at hr
    exact absurd hr (by decide)

theorem nextMkdirat_made {fs : Files} {buf : Str} {mode : Word} {v : Option Errno} (hb : fs.names buf = none)
    (hr : 0 ≤ (nextMkdirat fs buf mode v).2) : v = none ∧ buf ≠ [] := by
  cases v with
  | some e => exact absurd hr (show ¬ (0 : Int) ≤ -1 by decide)
  | none =>
    refine ⟨rfl, fun he => ?_⟩
    simp only [nextMkdirat, hb, if_pos he] at hr
    exact absurd hr (by decide)

theorem isDirectory_of_none {fs : Files} {buf : Str} (hb : fs.names buf = none) : isDirectory fs buf = false := by
  unfold isDirectory; rw [hb]

theorem setMode_create {fs fs' : Files} {buf : Str} {fmt mode : Word} (hp : perm fmt = perm mode)
    (hfs : fs'.inode = (fs.create (some buf) fmt).inode) (hnames : fs'.names = (fs.create (some buf) fmt).names)
    (old new : Word) :
    (setMode fs' buf old new).names buf = some fs.nextIno ∧
      seenPerm (setMode fs' buf old new) fs.nextIno = afterSet mode old new := by
  have hseen : ModesSeen fs (seenPerm fs) := fun _ _ => rfl
  have hkeeps : _ ↔ afterSet mode old new = _ := create_keeps hseen hp hfs hnames (afterSet mode old new)
  refine ⟨?_, (hkeeps.mpr rfl).2⟩
  rw [setMode, setAttr_names, hnames, create_names, if_pos rfl]

theorem openBuf_create {fs : Files} {buf : Str} (hb : fs.names buf = none) {oflags : Word}
    (hc : oflags &&& oCreat ≠ 0) (m : Word) {v : Option Errno} (hr : 0 ≤ (openBuf fs buf oflags m v).2) :
    (openBuf fs buf oflags m v).1.names buf = some fs.nextIno ∧ seenPerm (openBuf fs buf oflags m v).1 fs.nextIno =
      afterSet (warnAndSetUserMode m 0o600 &&& ~~~fs.umask) m (warnAndSetUserMode m 0o600) := by
  have hneeds : needsMode oflags = true := by
    rw [needsMode, Bool.or_eq_true, bne_iff_ne]
    exact Or.inl hc
  have hmodes : openModes fs buf oflags m = (m, warnAndSetUserMode m 0o600) := by
    simp only [openModes, hneeds, if_true, if_pos hc, warnIfInsuffisantUserMode, isDirectory_of_none hb]
    rfl
  unfold openBuf at hr ⊢
  rw [hmodes] at hr ⊢
  dsimp only at hr ⊢
  obtain ⟨hv, hne⟩ := nextOpen_made hb hr
  rcases nextOpen_cases fs buf oflags (warnAndSetUserMode m 0o600) v with
    ⟨i, hi, -⟩ | ⟨-, -, -, -, h⟩ | ⟨-, -, -, -, hc'⟩
  · rw [hb] at hi; cases hi
  · exact setMode_create (perm_sIfreg _ _) (by rw [h]; rfl) (by rw [h]; rfl) m _
  · exact absurd (hc' hb hv hc) hne

theorem mkdirBuf_create {fs : Files} {buf : Str} (hb : fs.names buf = none) (m : Word) {v : Option Errno}
    (hr : 0 ≤ (mkdirBuf fs buf m v).2) :
    (mkdirBuf fs buf m v).1.names buf = some fs.nextIno ∧ seenPerm (mkdirBuf fs buf m v).1 fs.nextIno =
      afterSet (warnAndSetUserMode m 0o600 &&& ~~~fs.umask) m (warnAndSetUserMode m 0o600) := by
  have hmode : warnIfInsuffisantUserMode (isDirectory fs buf) m = warnAndSetUserMode m 0o600 := by
    rw [isDirectory_of_none hb]; rfl
  unfold mkdirBuf at hr ⊢
  rw [hmode] at hr ⊢
  dsimp only at hr ⊢
  obtain ⟨hv, hne⟩ := nextMkdirat_made hb hr
  rcases nextMkdirat_cases fs buf (warnAndSetUserMode m 0o600) v with ⟨-, -, -, h⟩ | ⟨-, hc⟩
  · exact setMode_create (perm_sIfdir _ _) (by rw [h]) (by rw [h]) m _
  · exact absurd (hc hb hv) hne

theorem ModeCall.Creates.run_names {resolve : Resolve} {fs : Files} {m : Word} {c : ModeCall}
    (h : c.Creates resolve fs m) {v : Option Errno} (hr : 0 ≤ (c.run resolve fs v).2) :
    ∃ buf, (c.run resolve fs v).1.names buf = some fs.nextIno ∧ seenPerm (c.run resolve fs v).1 fs.nextIno =
      afterSet (warnAndSetUserMode m 0o600 &&& ~~~fs.umask) m (warnAndSetUserMode m 0o600) := by
  rw [ModeCall.run_eq] at hr ⊢
  obtain ⟨buf, hb, ⟨oflags, hc, he⟩ | he⟩ := h
  · rw [he] at hr ⊢
    exact ⟨buf, openBuf_create hb hc m hr⟩
  · rw [he] at hr ⊢
    exact ⟨buf, mkdirBuf_create hb m hr⟩

/-! ## Whole runs -/

inductive MaskCall where
  | umask (nomem : Option Errno) (mask : Word)
  | mode (call : ModeCall) (v : Option Errno)

structure MaskState where
  files : Files
  env : Option Str
  mask : Word

def MaskState.umask (s : MaskState) (nomem : Option Errno) (mask : Word) : MaskState :=
  let r := Iamroot.umask s.files nomem s.env mask
  { files := r.2.1, env := r.2.2, mask := mask }

def maskStep (resolve : Resolve) (s : MaskState) : MaskCall → MaskState
  | .umask nomem mask => s.umask nomem mask
  | .mode call v => { s with files := (call.run resolve s.files v).1 }

theorem setAttr_umask (a : Attr) (fs : Files) (path : Str) (old new : Word) :
    (setAttr a fs path old new).umask = fs.umask := by
  unfold setAttr; split <;> rfl

theorem nextOpen_umask (fs : Files) (buf : Str) (oflags mode : Word) (v : Option Errno) :
    (nextOpen fs buf oflags mode v).1.umask = fs.umask := by
  unfold nextOpen
  split
  · rfl
  · dsimp only
    split <;> split
    · rfl
    · split <;> rfl
    · rfl
    · rfl

theorem nextMkdirat_umask (fs : Files) (buf : Str) (mode : Word) (v : Option Errno) :
    (nextMkdirat fs buf mode v).1.umask = fs.umask := by
  rcases nextMkdirat_cases fs buf mode v with ⟨-, -, -, h⟩ | ⟨h, -⟩
  · rw [h]; rfl
  · rw [h]

theorem chmodBuf_umask (fs : Files) (t : Option Ino) (dir : Bool) (buf : Str) (mode : Word) (v : Option Errno) :
    (chmodBuf fs t dir buf mode v).1.umask = fs.umask := by
  cases t with
  | none => exact setAttr_umask ..
  | some i =>
    cases v with
    | none => rw [chmodBuf_done]; exact setAttr_umask ..
    | some e => rw [chmodBuf_fail]; exact setAttr_umask ..

theorem ModeCall.run_umask (resolve : Resolve) (fs : Files) (v : Option Errno) (c : ModeCall) :
    (c.run resolve fs v).1.umask = fs.umask := by
  rw [ModeCall.run_eq]
  cases c.resolved resolve fs with
  | none => rfl
  | some r =>
    cases r with
    | chmod target dir buf mode => exact chmodBuf_umask ..
    | open_ buf oflags mode => exact (setAttr_umask ..).trans (nextOpen_umask ..)
    | mkdir buf mode => exact (setAttr_umask ..).trans (nextMkdirat_umask ..)

theorem MaskState.umask_host (s : MaskState) (nomem : Option Errno) (mask : Word) :
    (s.umask nomem mask).files.umask = hostMask (s.umask nomem mask).mask := rfl

/-- From the first `umask` on, the host has the mask of the last one. -/
theorem exec_umask (resolve : Resolve) :
    ∀ (l : List MaskCall) (s : MaskState), s.files.umask = hostMask s.mask →
      (Run.exec (maskStep resolve) s l).files.umask = hostMask (Run.exec (maskStep resolve) s l).mask
  | [], _, hs => hs
  | .umask nomem mask :: l, s, _ => exec_umask resolve l _ (s.umask_host nomem mask)
  | .mode call v :: l, s, hs => exec_umask resolve l _ ((ModeCall.run_umask resolve s.files v call).trans hs)

/-- Every stat of the file, whichever call makes it and however its path is resolved, reports the bits `w`. -/
def Reports (fs : Files) (i : Ino) (w : Word) : Prop :=
  ∀ (resolve : Resolve) (c : StatCall) (v : Option Errno) (st : Stat),
    c.file resolve fs = some i → c.run resolve fs v = some st → perm st.mode = w

theorem reports_iff_seenPerm {fs : Files} {i : Ino} {buf : Str} (hb : fs.names buf = some i) (w : Word) :
    Reports fs i w ↔ seenPerm fs i = w := by
  constructor
  · intro h
    have hfile : (StatCall.stat buf).file asIs fs = some i := hb
    obtain ⟨st, hst⟩ : ∃ st, (StatCall.stat buf).run asIs fs none = some st := by
      simp [StatCall.run, Iamroot.stat, Iamroot.fstatat, asIs, statBuf, hb]
    have hseen := StatCall.run_eq asIs fs _ hst hfile
    rw [← h asIs _ none st hfile hst, hseen]
    rfl
  · intro h resolve c v st hi hst
    rw [StatCall.run_eq resolve fs c hst hi]
    exact h

/-- **The mode of a new file.** After `umask(u)` and whatever came since, a new
file has the bits that the mask of the last `umask` leaves of the mode exactly
under the condition. -/
theorem created_reports_iff (resolve : Resolve) (s : MaskState) (nomem : Option Errno) (u : Word) (l : List MaskCall)
    (c : ModeCall) (m : Word) (v : Option Errno)
    (hc : c.Creates resolve (Run.exec (maskStep resolve) (s.umask nomem u) l).files m)
    (hr : 0 ≤ (c.run resolve (Run.exec (maskStep resolve) (s.umask nomem u) l).files v).2) :
    Reports (c.run resolve (Run.exec (maskStep resolve) (s.umask nomem u) l).files v).1
        (Run.exec (maskStep resolve) (s.umask nomem u) l).files.nextIno
        (perm (m &&& ~~~(Run.exec (maskStep resolve) (s.umask nomem u) l).mask)) ↔
      MaskTaken m (Run.exec (maskStep resolve) (s.umask nomem u) l).mask := by
  have hmask := exec_umask resolve l (s.umask nomem u) (s.umask_host nomem u)
  obtain ⟨buf, hb, hseen⟩ := hc.run_names hr
  rw [reports_iff_seenPerm hb, hseen, hmask]
  exact afterSet_create_iff m _

/-- `umask(022)`, then `/d` with the mode 0750. -/
theorem created_reports_mkdirat :
    Reports (ModeCall.run asIs (MaskState.umask ⟨oneFile, none, 0⟩ none 0o022).files none (.mkdirat 0 ['/', 'd'] 0o750)).1
      1 (perm (0o750 &&& ~~~0o022)) :=
  (created_reports_iff asIs ⟨oneFile, none, 0⟩ none 0o022 [] (.mkdirat 0 ['/', 'd'] 0o750) 0o750 none
    ⟨['/', 'd'], by decide, Or.inr rfl⟩ (by decide)).mpr (by decide)

/-- After `umask(022)`, the file that `open` makes with the mode 0466 shows
0466: the attribute has it, as the host got 0666. -/
theorem created_unmasked : oneFile.names ['/', 'g'] = none ∧ ∃ st, StatCall.run asIs
    (ModeCall.run asIs (MaskState.umask ⟨oneFile, none, 0⟩ none 0o022).files none (.open_ ['/', 'g'] oCreat 0o466)).1 none
      (.stat ['/', 'g']) = some st ∧
    (ModeCall.run asIs (MaskState.umask ⟨oneFile, none, 0⟩ none 0o022).files none (.open_ ['/', 'g'] oCreat 0o466)).2 = 3 ∧
    perm st.mode = 0o466 ∧ perm (0o466 &&& ~~~0o022) = 0o444 :=
  ⟨by decide, _, rfl, by decide, by decide, by decide⟩

end Iamroot
