import Iamroot.FdMap

/-!
# Emulated user ids

The real, the effective and the saved user id are the values of three variables of
the environment. `setuid` writes the first and `seteuid` the second; `setreuid`
is written on the two, and `setresuid` on `setreuid`. What they come to is compared
with what the kernel does for a privileged process. Decimal text of an id fits in
the `BUFSIZ` bytes it is printed to.
-/

namespace Iamroot

def uidVar : Str := "IAMROOT_UID".toList

def euidVar : Str := "IAMROOT_EUID".toList

def suidVar : Str := "IAMROOT_SUID".toList

structure Ids where
  real : Word
  eff : Word
  saved : Word
  deriving DecidableEq

/-! ## The getters -/

/-- The value of a variable, 0 when it is unset or out of range. -/
def readId (name : Str) (env : List Str) : Word :=
  match strtoul ((getText name env).getD ['0']) with
  | .ok n => BitVec.ofNat 32 n
  | .error _ => 0

def getuid (env : List Str) : Word := readId uidVar env

def geteuid (env : List Str) : Word := readId euidVar env

def getresuid (env : List Str) : Option Ids :=
  let ruid := getuid env
  if ruid = minusOne then none
  else
    let euid := geteuid env
    if euid = minusOne then none else some ⟨ruid, euid, readId suidVar env⟩

/-! ## The setters -/

section
variable (nomem : Str → Option Errno) (env : List Str)

/-- `_setenv` of a printed id; `nomem` is the error that it fails with for a variable. -/
def storeId (name : Str) (id : Word) : Except Errno Unit × List Str :=
  match nomem name with
  | some e => (.error e, env)
  | none => (.ok (), putText name (Nat.toDigits 10 id.toNat) env)

def setuid (uid : Word) : Except Errno Unit × List Str :=
  if uid = minusOne then (.error .EINVAL, env) else storeId nomem env uidVar uid

def seteuid (uid : Word) : Except Errno Unit × List Str :=
  if uid = minusOne then (.error .EINVAL, env) else storeId nomem env euidVar uid

def setreuid (ruid euid : Word) : Except Errno Unit × List Str :=
  match if euid ≠ minusOne then seteuid nomem env euid else (.ok (), env) with
  | (.error e, env) => (.error e, env)
  | (.ok _, env) => if ruid ≠ minusOne then setuid nomem env ruid else (.ok (), env)

def setresuid (ruid euid suid : Word) : Except Errno Unit × List Str :=
  match setreuid nomem env ruid euid with
  | (.error e, env) => (.error e, env)
  | (.ok _, env) => if suid ≠ minusOne then storeId nomem env suidVar suid else (.ok (), env)

end

inductive IdCall where
  | setuid (uid : Word)
  | seteuid (uid : Word)
  | setreuid (ruid euid : Word)
  | setresuid (ruid euid suid : Word)

def IdCall.run (nomem : Str → Option Errno) (env : List Str) : IdCall → Except Errno Unit × List Str
  | .setuid u => Iamroot.setuid nomem env u
  | .seteuid u => Iamroot.seteuid nomem env u
  | .setreuid r e => Iamroot.setreuid nomem env r e
  | .setresuid r e s => Iamroot.setresuid nomem env r e s

/-! ## The kernel -/

/-- An id of -1 keeps the old one. -/
def given (id old : Word) : Word := if id = minusOne then old else id

/-- What the calls do to the ids of a privileged process: `none` when they fail. -/
def IdCall.privileged (ids : Ids) : IdCall → Option Ids
  | .setuid u => if u = minusOne then none else some ⟨u, u, u⟩
  | .seteuid u => if u = minusOne then none else some { ids with eff := u }
  | .setreuid r e => some
    { real := given r ids.real
      eff := given e ids.eff
      saved := if r ≠ minusOne ∨ (e ≠ minusOne ∧ e ≠ ids.real) then given e ids.eff else ids.saved }
  | .setresuid r e s => some ⟨given r ids.real, given e ids.eff, given s ids.saved⟩

/-! ## Runs -/

/-- The environment, and the ids that a privileged process has after the same calls. -/
structure IdState where
  environ : List Str
  ids : Ids

namespace IdState

def step (s : IdState) (c : IdCall × (Str → Option Errno)) : IdState :=
  let r := c.1.run c.2 s.environ
  { environ := r.2
    ids :=
      match r.1 with
      | .ok _ => (c.1.privileged s.ids).getD s.ids
      | .error _ => s.ids }

structure Reports (s : IdState) : Prop where
  getuid : getuid s.environ = s.ids.real
  geteuid : geteuid s.environ = s.ids.eff
  getresuid : getresuid s.environ = some s.ids

def Refused (nomem : Str → Option Errno) (name : Str) (id : Word) : Prop := id ≠ minusOne ∧ nomem name ≠ none

instance (nomem : Str → Option Errno) (name : Str) (id : Word) : Decidable (Refused nomem name id) := by
  unfold Refused
  infer_instance

/-- The calls that the library gets right. Those of `setuid` have nothing else to set; those of `setreuid` have
no saved id to set, or find it set; and those that fail after they have written an id have written the old one. -/
def Right (s : IdState) (c : IdCall × (Str → Option Errno)) : Prop :=
  match c.1 with
  | .setuid u => u = minusOne ∨ c.2 uidVar ≠ none ∨ (s.ids.eff = u ∧ s.ids.saved = u)
  | .seteuid _ => True
  | .setreuid r e =>
    if Refused c.2 euidVar e then True
    else if Refused c.2 uidVar r then given e s.ids.eff = s.ids.eff
    else (r = minusOne ∧ given e s.ids.real = s.ids.real) ∨ s.ids.saved = given e s.ids.eff
  | .setresuid r e u =>
    if Refused c.2 euidVar e then True
    else if Refused c.2 uidVar r then given e s.ids.eff = s.ids.eff
    else if Refused c.2 suidVar u then given e s.ids.eff = s.ids.eff ∧ given r s.ids.real = s.ids.real
    else True

end IdState

/-! ## One variable -/

section
variable {env : List Str} {name name' : Str} {id : Word}

theorem readId_putText (h : IsName name) (id : Word) (env : List Str) :
    readId name (putText name (Nat.toDigits 10 id.toNat) env) = id := by
  have hle : id.toNat ≤ ulongMax := Nat.le_trans (Nat.le_of_lt id.isLt) (by decide)
  rw [readId, getText_putText_self h, Option.getD_some, strtoul_toDigits hle]
  dsimp only
  rw [BitVec.ofNat_toNat, BitVec.setWidth_eq]

theorem readId_putText_of_ne (h : IsName name) (hne : name ≠ name') (value : Str) (env : List Str) :
    readId name' (putText name value env) = readId name' env := by
  rw [readId, getText_putText_of_ne h hne, readId]

end

def idsOf (env : List Str) : Ids := ⟨readId uidVar env, readId euidVar env, readId suidVar env⟩

section
variable (id : Word) (env : List Str)

theorem idsOf_putUid : idsOf (putText uidVar (Nat.toDigits 10 id.toNat) env) = { idsOf env with real := id } := by
  unfold idsOf
  rw [readId_putText (by decide), readId_putText_of_ne (by decide) (by decide), readId_putText_of_ne (by decide) (by decide)]

theorem idsOf_putEuid : idsOf (putText euidVar (Nat.toDigits 10 id.toNat) env) = { idsOf env with eff := id } := by
  unfold idsOf
  rw [readId_putText (by decide), readId_putText_of_ne (by decide) (by decide), readId_putText_of_ne (by decide) (by decide)]

theorem idsOf_putSuid : idsOf (putText suidVar (Nat.toDigits 10 id.toNat) env) = { idsOf env with saved := id } := by
  unfold idsOf
  rw [readId_putText (by decide), readId_putText_of_ne (by decide) (by decide), readId_putText_of_ne (by decide) (by decide)]

end

/-! ## One call -/

theorem given_ne {id old : Word} (h : old ≠ minusOne) : given id old ≠ minusOne := by
  unfold given
  split
  · exact h
  · assumption

theorem given_eq_self {id old : Word} : given id old = old ↔ id = minusOne ∨ id = old := by
  unfold given
  split
  · simp [*]
  · simp [*]

section
variable {nomem : Str → Option Errno} (env : List Str) {r e u : Word}

theorem not_refused {name : Str} {id : Word} (h : ¬ IdState.Refused nomem name id) (hid : id ≠ minusOne) : nomem name = none := by
  by_contra hn
  exact h ⟨hid, hn⟩

theorem seteuid_stores (hid : e ≠ minusOne) (h : ¬ IdState.Refused nomem euidVar e) :
    seteuid nomem env e = (.ok (), putText euidVar (Nat.toDigits 10 e.toNat) env) := by
  rw [seteuid, if_neg hid, storeId, not_refused h hid]

theorem setuid_stores (hid : u ≠ minusOne) (h : ¬ IdState.Refused nomem uidVar u) :
    setuid nomem env u = (.ok (), putText uidVar (Nat.toDigits 10 u.toNat) env) := by
  rw [setuid, if_neg hid, storeId, not_refused h hid]

theorem setreuid_refused (r : Word) (h : IdState.Refused nomem euidVar e) : ∃ x, setreuid nomem env r e = (.error x, env) := by
  obtain ⟨x, hx⟩ := Option.ne_none_iff_exists'.mp h.2
  refine ⟨x, ?_⟩
  rw [setreuid, if_pos h.1, seteuid, if_neg h.1, storeId, hx]

theorem setreuid_second (r : Word) (h : ¬ IdState.Refused nomem euidVar e) : ∃ env', idsOf env' = { idsOf env with eff := given e (idsOf env).eff } ∧
    setreuid nomem env r e = if r ≠ minusOne then setuid nomem env' r else (.ok (), env') := by
  by_cases he : e = minusOne
  · refine ⟨env, ?_, ?_⟩
    · rw [given, if_pos he]
    · rw [setreuid, if_neg (not_not_intro he)]
  · refine ⟨putText euidVar (Nat.toDigits 10 e.toNat) env, ?_, ?_⟩
    · rw [idsOf_putEuid, given, if_neg he]
    · rw [setreuid, if_pos he, seteuid_stores env he h]

/-- A call that fails at the real uid has written the effective one. -/
theorem setreuid_half (h : ¬ IdState.Refused nomem euidVar e) (h' : IdState.Refused nomem uidVar r) :
    ∃ x env', setreuid nomem env r e = (.error x, env') ∧ idsOf env' = { idsOf env with eff := given e (idsOf env).eff } := by
  obtain ⟨env', hids, heq⟩ := setreuid_second env r h
  obtain ⟨x, hx⟩ := Option.ne_none_iff_exists'.mp h'.2
  refine ⟨x, env', ?_, hids⟩
  rw [heq, if_pos h'.1, setuid, if_neg h'.1, storeId, hx]

theorem setreuid_stores (h : ¬ IdState.Refused nomem euidVar e) (h' : ¬ IdState.Refused nomem uidVar r) :
    ∃ env', setreuid nomem env r e = (.ok (), env') ∧
      idsOf env' = { idsOf env with real := given r (idsOf env).real, eff := given e (idsOf env).eff } := by
  obtain ⟨env', hids, heq⟩ := setreuid_second env r h
  by_cases hr : r = minusOne
  · refine ⟨env', ?_, ?_⟩
    · rw [heq, if_neg (not_not_intro hr)]
    · rw [hids, given, given, if_pos hr]
  · refine ⟨putText uidVar (Nat.toDigits 10 r.toNat) env', ?_, ?_⟩
    · rw [heq, if_pos hr, setuid_stores env' hr h']
    · rw [idsOf_putUid, hids, given, given, if_neg hr]

theorem setresuid_of_error {x : Errno} {env' : List Str} (u : Word) (h : setreuid nomem env r e = (.error x, env')) :
    setresuid nomem env r e u = (.error x, env') := by
  rw [setresuid, h]

theorem setresuid_refused {env' : List Str} (h : setreuid nomem env r e = (.ok (), env')) (hu : IdState.Refused nomem suidVar u) :
    ∃ x, setresuid nomem env r e u = (.error x, env') := by
  obtain ⟨x, hx⟩ := Option.ne_none_iff_exists'.mp hu.2
  refine ⟨x, ?_⟩
  rw [setresuid, h]
  dsimp only
  rw [if_pos hu.1, storeId, hx]

theorem setresuid_stores {env' : List Str} (h : setreuid nomem env r e = (.ok (), env')) (hu : ¬ IdState.Refused nomem suidVar u) :
    ∃ env'', setresuid nomem env r e u = (.ok (), env'') ∧ idsOf env'' = { idsOf env' with saved := given u (idsOf env').saved } := by
  by_cases hs : u = minusOne
  · refine ⟨env', ?_, ?_⟩
    · rw [setresuid, h]
      exact if_neg (not_not_intro hs)
    · rw [given, if_pos hs]
  · refine ⟨putText suidVar (Nat.toDigits 10 u.toNat) env', ?_, ?_⟩
    · rw [setresuid, h]
      dsimp only
      rw [if_pos hs, storeId, not_refused hu hs]
    · rw [idsOf_putSuid, given, if_neg hs]

end

namespace IdState

variable {s : IdState}

theorem reports_iff : s.Reports ↔ idsOf s.environ = s.ids ∧ s.ids.real ≠ minusOne ∧ s.ids.eff ≠ minusOne := by
  constructor
  · intro ⟨h1, h2, h3⟩
    have hr : Iamroot.getuid s.environ ≠ minusOne := by
      intro h
      rw [Iamroot.getresuid, if_pos h] at h3
      cases h3
    have he : Iamroot.geteuid s.environ ≠ minusOne := by
      intro h
      rw [Iamroot.getresuid, if_neg hr] at h3
      simp only [h, if_true] at h3
      cases h3
    rw [Iamroot.getresuid, if_neg hr] at h3
    simp only [he, if_false] at h3
    exact ⟨Option.some.inj h3, h1 ▸ hr, h2 ▸ he⟩
  · intro ⟨hi, hr, he⟩
    rw [← hi] at hr he
    have h1 : Iamroot.getuid s.environ ≠ minusOne := hr
    have h2 : Iamroot.geteuid s.environ ≠ minusOne := he
    refine ⟨congrArg Ids.real hi, congrArg Ids.eff hi, ?_⟩
    rw [Iamroot.getresuid, if_neg h1]
    simp only [h2, if_false]
    exact congrArg some hi

theorem step_reports_iff (h : s.Reports) (c : IdCall × (Str → Option Errno)) : (s.step c).Reports ↔ s.Right c := by
  obtain ⟨hi, hr, he⟩ := reports_iff.mp h
  rw [reports_iff]
  obtain ⟨call, nomem⟩ := c
  obtain ⟨env, ⟨real, eff, saved⟩⟩ := s
  dsimp only at hi hr he
  cases call with
  | setuid u =>
    by_cases hu : u = minusOne
    · simp [step, IdCall.run, Iamroot.setuid, Right, hu, hi, hr, he]
    · cases hn : nomem uidVar with
      | some e => simp [step, IdCall.run, Iamroot.setuid, storeId, Right, hu, hn, hi, hr, he]
      | none => simp [step, IdCall.run, Iamroot.setuid, storeId, IdCall.privileged, Right, idsOf_putUid, hu, hn, hi]
  | seteuid u =>
    by_cases hu : u = minusOne
    · simp [step, IdCall.run, Iamroot.seteuid, Right, hu, hi, hr, he]
    · cases hn : nomem euidVar with
      | some e => simp [step, IdCall.run, Iamroot.seteuid, storeId, Right, hu, hn, hi, hr, he]
      | none => simp [step, IdCall.run, Iamroot.seteuid, storeId, IdCall.privileged, Right, idsOf_putEuid, hu, hn, hi, hr]
  | setreuid r e =>
    have hr' : given r real ≠ minusOne := given_ne hr
    have he' : given e eff ≠ minusOne := given_ne he
    by_cases h1 : Refused nomem euidVar e
    · obtain ⟨x, hx⟩ := setreuid_refused env r h1
      simp [step, IdCall.run, Right, h1, hx, hi, hr, he]
    by_cases h2 : Refused nomem uidVar r
    · obtain ⟨x, env', hx, hids⟩ := setreuid_half env h1 h2
      simp [step, IdCall.run, Right, h1, h2, hx, hids, hi, hr, he]
    · obtain ⟨env', hx, hids⟩ := setreuid_stores env h1 h2
      have hsaved : (¬ r = minusOne ∨ ¬ e = minusOne ∧ ¬ e = real → saved = given e eff) ↔
          r = minusOne ∧ given e real = real ∨ saved = given e eff := by
        rw [given_eq_self]
        tauto
      simpa [step, IdCall.run, IdCall.privileged, Right, h1, h2, hx, hids, hi, hr', he'] using hsaved
  | setresuid r e u =>
    have hr' : given r real ≠ minusOne := given_ne hr
    have he' : given e eff ≠ minusOne := given_ne he
    by_cases h1 : Refused nomem euidVar e
    · obtain ⟨x, hx⟩ := setreuid_refused env r h1
      simp [step, IdCall.run, Right, h1, setresuid_of_error env u hx, hi, hr, he]
    by_cases h2 : Refused nomem uidVar r
    · obtain ⟨x, env', hx, hids⟩ := setreuid_half env h1 h2
      simp [step, IdCall.run, Right, h1, h2, setresuid_of_error env u hx, hids, hi, hr, he]
    obtain ⟨env', hx, hids⟩ := setreuid_stores env h1 h2
    by_cases h3 : Refused nomem suidVar u
    · obtain ⟨x, hx'⟩ := setresuid_refused env hx h3
      simp [step, IdCall.run, Right, h1, h2, h3, hx', hids, hi, hr, he, and_comm]
    · obtain ⟨env'', hx', hids'⟩ := setresuid_stores env hx h3
      simp [step, IdCall.run, IdCall.privileged, Right, h1, h2, h3, hx', hids', hids, hi, hr', he']

/-- **The emulated ids**: a run reports after each call what a privileged process would have just when each
call of it is one that the library gets right. -/
theorem reports_run_iff (h : s.Reports) (l : List (IdCall × (Str → Option Errno))) :
    Run.Meets step Right s l ↔ ∀ l₁, l₁ <+: l → (Run.exec step s l₁).Reports :=
  Run.Meets.iff (fun _ c hs hc => (step_reports_iff hs c).mpr hc) (fun _ hs => hs)
    (fun _ c hs hc => (step_reports_iff hs c).mp hc) l s h

theorem start_reports : Reports ⟨[], ⟨0, 0, 0⟩⟩ := ⟨by decide, by decide, by decide⟩

/-- The real and the saved uid are set, and then the effective one. -/
theorem reports_run_setresuid :
    (Run.exec step ⟨[], ⟨0, 0, 0⟩⟩ [(IdCall.setresuid 5 minusOne 7, fun _ => none), (.seteuid 1000, fun _ => none)]).Reports :=
  (reports_run_iff start_reports [(IdCall.setresuid 5 minusOne 7, fun _ => none), (.seteuid 1000, fun _ => none)]).mp
    ⟨by simp [Right, Refused], trivial, trivial⟩ _ (List.prefix_refl _)

/-- A privileged process that drops its privileges for good keeps the effective uid 0. -/
theorem setuid_keeps_root :
    (Run.exec step ⟨[], ⟨0, 0, 0⟩⟩ [(IdCall.setuid 1000, fun _ => none)]).ids = ⟨1000, 1000, 1000⟩ ∧
    getresuid (Run.exec step ⟨[], ⟨0, 0, 0⟩⟩ [(IdCall.setuid 1000, fun _ => none)]).environ = some ⟨1000, 0, 0⟩ ∧
    ¬ (Run.exec step ⟨[], ⟨0, 0, 0⟩⟩ [(IdCall.setuid 1000, fun _ => none)]).Reports := by
  refine ⟨rfl, by decide, fun h => ?_⟩
  have hget := h.geteuid
  revert hget
  decide

end IdState

end Iamroot
