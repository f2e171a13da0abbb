import Iamroot.Exec
import Iamroot.ResolutionSpec

/-!
# The three exec functions agree

Up to the label `loader` the three functions do the same, and after it too,
except for a program that has the name of a dynamic loader: `execve` runs the
loader by itself or hands the program over, and the two others fail, for their
versions of that step are not written. So they agree exactly when `execve` does
not come there, or fails there with the same errno.
-/

namespace Iamroot

def NextCall.args : NextCall → Handed
  | .execve a => a
  | .execveat _ a _ => a
  | .posixSpawn a => a

/-- Both reach the underlying call with the same arguments, or both fail with the same errno. -/
def Concur : Ran NextCall → Ran NextCall → Prop
  | .ok a _, .ok b _ => a.args = b.args
  | .err e _, .err e' _ => e = e'
  | .exit n, .exit m => n = m
  | .fault, .fault => True
  | .unfinished, .unfinished => True
  | _, _ => False

theorem Concur.refl (r : Ran NextCall) : Concur r r := by
  cases r <;> simp [Concur]

theorem concur_bind {α : Type} {x : Exec α} {f g : α → Exec NextCall} {s : ExecState} :
    Concur ((x >>= f) s) ((x >>= g) s) ↔ ∀ a s', x s = .ok a s' → Concur (f a s') (g a s') := by
  show Concur (Exec.bind x f s) (Exec.bind x g s) ↔ _
  unfold Exec.bind
  cases x s with
  | ok a s' => simp
  | err e s' => simp [Concur]
  | exit n => simp [Concur]
  | fault => simp [Concur]
  | unfinished => simp [Concur]

section
variable {w : ExecWorld} {F G : FrontEnd NextCall} {path : Str} {argv : List Str} {s : ExecState}

def FrontEnd.Plain (F : FrontEnd NextCall) : Prop := ∀ a, (F.next a).args = a

variable (hF : F.Plain) (hG : G.Plain)
include hF hG

theorem concur_callNext (envp : Envp) : Concur (callNext F path argv envp s) (callNext G path argv envp s) := by
  unfold callNext
  cases s.env.handed envp with
  | none => simp [Concur]
  | some l =>
    show (F.next _).args = (G.next _).args
    rw [hF, hG]

theorem concur_callNargv (I : Slots) : Concur (callNargv F I argv s) (callNargv G I argv s) := by
  unfold callNargv
  by_cases hlt : 1 + (I.strings ++ argv.tail).length < argMax
  · rw [if_pos hlt, if_pos hlt]
    cases I.strings ++ argv.tail with
    | nil => exact Concur.refl _
    | cons x l => exact concur_callNext hF hG _
  · rw [if_neg hlt, if_neg hlt]
    exact Concur.refl _

theorem concur_callExecSh (I : Slots) : Concur (callExecSh w F path argv I s) (callExecSh w G path argv I s) := by
  unfold callExecSh
  apply concur_bind.mpr
  intro J s' _
  exact concur_callNargv hF hG J

/-- After the stage the functions differ in the run of a loader only. -/
theorem concur_execFrom (hd : F.dfd = G.dfd) (ha : F.atflags = G.atflags) (envp : Envp) :
    Concur (execFrom w F path argv envp s) (execFrom w G path argv envp s) ↔
      ∀ e s₀, takeEnvp envp s = .ok e s₀ → ∀ buf program I off s₁,
        execStage w F.dfd path F.atflags argv s₀ = .ok (.loader buf program I off) s₁ →
        isLdso w (basename path) = true →
        Concur ((Exec.orNone .EAGAIN (F.ldso argv) >>= fun _ => callNext F buf argv e) s₁)
          ((Exec.orNone .EAGAIN (G.ldso argv) >>= fun _ => callNext G buf argv e) s₁) := by
  unfold execFrom
  rw [concur_bind, ← hd, ← ha]
  refine forall_congr' fun e => forall_congr' fun s₀ => forall_congr' fun _ => ?_
  rw [concur_bind]
  constructor
  · intro h buf program I off s₁ hs hl
    have := h _ _ hs
    simpa only [hl, if_true] using this
  · intro h st s₁ hs
    cases st with
    | execSh => exact concur_callExecSh hF hG _
    | asIs =>
      apply concur_bind.mpr
      intro _ s' _
      exact concur_callNext hF hG _
    | loader buf program I off =>
      by_cases hl : isLdso w (basename path) = true
      · simpa only [hl, if_true] using h _ _ _ _ _ hs hl
      · dsimp only
        rw [if_neg hl, if_neg hl]
        apply concur_bind.mpr
        intro r s' _
        cases r with
        | none => exact concur_callExecSh hF hG _
        | some r => exact concur_callNargv hF hG _

end

section
variable (w : ExecWorld) (path : Str) (argv : List Str) (envp : Envp) (s : ExecState)

/-- The program that was found is to be run under the name of a dynamic loader, in the state `s₁`. -/
def ComesToLdso (s₁ : ExecState) : Prop :=
  isLdso w (basename path) = true ∧ ∃ e s₀ buf program I off, takeEnvp envp s = .ok e s₀ ∧
    execStage w atFdcwd path 0 argv s₀ = .ok (.loader buf program I off) s₁

/-- The objects of a program are to be traced, and there `execve` comes to `ENOSYS` too: the variable says -1 and that
error stands, or the path of the program cannot be resolved for it, or the tracing ends with it. -/
def LdsoUnsupported (s₁ : ExecState) : Prop :=
  ∃ arg v, argv[1]? = some arg ∧ arg ≠ "--verify".toList ∧ getenv s₁.env "LD_TRACE_LOADED_OBJECTS".toList = some v ∧
    let n := strtol (v.getD ['0'])
    let s₂ : ExecState := if n.2 then { s₁ with errno := some .ERANGE } else s₁
    (toInt n.1 = -1 ∧ s₂.errno = some .ENOSYS) ∨ (toInt n.1 ≠ -1 ∧ toInt n.1 ≠ 0 ∧
      ((∃ s₃, resolveAt w atFdcwd arg pathMax 0 s₂ = .err (some .ENOSYS) s₃) ∨
        ∃ buf s₃, resolveAt w atFdcwd arg pathMax 0 s₂ = .ok buf s₃ ∧ w.ldTraceLoaderObjects s₃.env buf = .error .ENOSYS))

variable {w path argv envp s}

theorem ldTraceLoaderObjectsExec_enosys_iff {arg : Str} {s₂ : ExecState} :
    (∃ s₃, ldTraceLoaderObjectsExec w arg s₂ = .err (some .ENOSYS) s₃) ↔
      (∃ s₃, resolveAt w atFdcwd arg pathMax 0 s₂ = .err (some .ENOSYS) s₃) ∨
        ∃ buf s₃, resolveAt w atFdcwd arg pathMax 0 s₂ = .ok buf s₃ ∧ w.ldTraceLoaderObjects s₃.env buf = .error .ENOSYS := by
  show (∃ s₃, Exec.bind _ _ s₂ = _) ↔ _
  unfold Exec.bind
  cases resolveAt w atFdcwd arg pathMax 0 s₂ with
  | ok buf s₃ =>
    show (∃ s', Exec.ofExcept (w.ldTraceLoaderObjects s₃.env buf) s₃ = _) ↔ _
    cases ht : w.ldTraceLoaderObjects s₃.env buf with
    | ok a => simp [Exec.ofExcept, pure, ht]
    | error e => simp [Exec.ofExcept, Exec.fail, ht]
  | err e s₃ | exit n | fault | unfinished => simp

def traced (w : ExecWorld) (arg : Str) (ret : Int) : Exec Unit :=
  if ret = -1 then Exec.failAsIs
  else if ret = 0 then Exec.fail .EAGAIN
  else ldTraceLoaderObjectsExec w arg >>= fun _ => Exec.exit 0

theorem traced_enosys_iff {arg : Str} {ret : Int} {s₂ : ExecState} : (∃ s₃, traced w arg ret s₂ = .err (some .ENOSYS) s₃) ↔
    (ret = -1 ∧ s₂.errno = some .ENOSYS) ∨
      (ret ≠ -1 ∧ ret ≠ 0 ∧ ∃ s₃, ldTraceLoaderObjectsExec w arg s₂ = .err (some .ENOSYS) s₃) := by
  unfold traced
  by_cases h1 : ret = -1
  · simp [h1, Exec.failAsIs]
  · by_cases h0 : ret = 0
    · simp [h0, Exec.fail]
    · rw [if_neg h1, if_neg h0]
      simp only [h1, h0, false_and, false_or, ne_eq, not_false_eq_true, true_and]
      show (∃ s', Exec.bind _ _ s₂ = _) ↔ _
      unfold Exec.bind
      cases ldTraceLoaderObjectsExec w arg s₂ with
      | ok a s₃ => simp [Exec.exit]
      | err e s₃ | exit n | fault | unfinished => simp

/-- The variable is read where the program is not to be verified. -/
theorem ldsoExecve_traced {arg : Str} (harg : argv[1]? = some arg) (hverify : arg ≠ "--verify".toList) (s₁ : ExecState) :
    ldsoExecve w argv s₁ = (getenv s₁.env "LD_TRACE_LOADED_OBJECTS".toList).elim .fault fun v =>
      traced w arg (toInt (strtol (v.getD ['0'])).1)
        (if (strtol (v.getD ['0'])).2 then { s₁ with errno := some .ERANGE } else s₁) := by
  have hne : ¬ streq arg "--verify".toList = true := fun h => hverify ((streq_iff _ _).mp h)
  have hrun : ldsoExecve w argv = Exec.bind getldTraceLoadedObjects (traced w arg) := by
    unfold ldsoExecve
    rw [harg]
    exact if_neg hne
  have htrace : getldTraceLoadedObjects s₁ = (getenv s₁.env "LD_TRACE_LOADED_OBJECTS".toList).elim .fault fun v =>
      .ok (toInt (strtol (v.getD ['0'])).1) (if (strtol (v.getD ['0'])).2 then { s₁ with errno := some .ERANGE } else s₁) := by
    show Exec.bind (Exec.getenv _) _ s₁ = _
    unfold Exec.bind Exec.getenv
    cases getenv s₁.env "LD_TRACE_LOADED_OBJECTS".toList <;> rfl
  rw [hrun]
  unfold Exec.bind
  rw [htrace]
  cases getenv s₁.env "LD_TRACE_LOADED_OBJECTS".toList <;> rfl

theorem ldsoExecve_enosys_iff (s₁ : ExecState) :
    (∃ s₂, ldsoExecve w argv s₁ = .err (some .ENOSYS) s₂) ↔ LdsoUnsupported w argv s₁ := by
  unfold LdsoUnsupported
  cases harg : argv[1]? with
  | none => simp [ldsoExecve, harg, Exec.fail]
  | some arg =>
    by_cases hverify : arg = "--verify".toList
    · refine iff_of_false (fun h => ?_) fun h => ?_
      · obtain ⟨s₂, h⟩ := h
        unfold ldsoExecve at h
        rw [harg] at h
        dsimp only at h
        rw [if_pos ((streq_iff _ _).mpr hverify)] at h
        change Exec.bind _ _ s₁ = _ at h
        unfold Exec.bind Exec.orElse at h
        cases hx : ldsoVerify w argv[2]? s₁ with
        | ok a s' | err e s' | exit n | fault | unfinished =>
          rw [hx] at h
          cases h
      · obtain ⟨arg', v, ha, hne, -⟩ := h
        exact hne (Option.some.inj ha ▸ hverify)
    · rw [ldsoExecve_traced harg hverify]
      cases hv : getenv s₁.env "LD_TRACE_LOADED_OBJECTS".toList with
      | none => simp
      | some v =>
        rw [Option.elim_some, traced_enosys_iff, ldTraceLoaderObjectsExec_enosys_iff]
        constructor
        · intro h
          exact ⟨arg, v, rfl, hverify, rfl, h⟩
        · intro h
          obtain ⟨arg', v', ha, -, hv', h⟩ := h
          cases ha
          cases hv'
          exact h

theorem concur_unwritten {F : FrontEnd NextCall} (hF : F.Plain) (hd : F.dfd = atFdcwd) (ha : F.atflags = 0)
    (hl : F.ldso argv = Exec.fail .ENOSYS) :
    Concur (execve w path argv envp s) (execFrom w F path argv envp s) ↔
      ∀ s₁, ComesToLdso w path argv envp s s₁ → ∃ s₂, ldsoExecve w argv s₁ = .err (some .ENOSYS) s₂ := by
  have hstep : ∀ (buf : Str) (e : Envp) (s₁ : ExecState),
      Concur ((Exec.orNone .EAGAIN (ldsoExecve w argv) >>= fun _ =>
          callNext ⟨atFdcwd, 0, ldsoExecve w, .execve⟩ buf argv e) s₁)
        ((Exec.orNone .EAGAIN (F.ldso argv) >>= fun _ => callNext F buf argv e) s₁) ↔
      ∃ s₂, ldsoExecve w argv s₁ = .err (some .ENOSYS) s₂ := by
    intro buf e s₁
    have hr : (Exec.orNone .EAGAIN (F.ldso argv) >>= fun _ => callNext F buf argv e) s₁ =
        .err (some .ENOSYS) { s₁ with errno := some .ENOSYS } := by rw [hl]; rfl
    rw [hr]
    show Concur (Exec.bind _ _ s₁) _ ↔ _
    unfold Exec.bind Exec.orNone
    cases ldsoExecve w argv s₁ with
    | ok a s₂ =>
      simp only [callNext]
      cases s₂.env.handed e <;> simp [Concur]
    | err e' s₂ =>
      by_cases he : e' = some .EAGAIN
      · simp only [he, if_true, callNext]
        cases s₂.env.handed e <;> simp [Concur]
      · simp [he, Concur]
    | exit n => simp [Concur]
    | fault => simp [Concur]
    | unfinished => simp [Concur]
  have hE : FrontEnd.Plain ⟨atFdcwd, 0, ldsoExecve w, .execve⟩ := fun _ => rfl
  rw [execve, concur_execFrom hE hF hd.symm ha.symm]
  constructor
  · rintro h s₁ ⟨hname, e, s₀, buf, program, I, off, he, hs⟩
    exact (hstep buf e s₁).mp (h e s₀ he buf program I off s₁ hs hname)
  · intro h e s₀ he buf program I off s₁ hs hname
    exact (hstep buf e s₁).mpr (h s₁ ⟨hname, e, s₀, buf, program, I, off, he, hs⟩)

variable (w path argv envp s)

/-- The three functions agree unless the program is to be run under the name of a dynamic loader; there
they agree if `execve` comes to ENOSYS too. -/
theorem execs_agree :
    (Concur (execve w path argv envp s) (execveat w atFdcwd path argv envp 0 s) ∧
        Concur (execve w path argv envp s) (posixSpawn w path argv envp s)) ↔
      ∀ s₁, ComesToLdso w path argv envp s s₁ → LdsoUnsupported w argv s₁ := by
  have hat : Concur (execve w path argv envp s) (execFrom w ⟨atFdcwd, 0, ldsoExecveat, fun a => .execveat atFdcwd a 0⟩
      path argv envp s) ↔ _ := concur_unwritten (fun _ => rfl) rfl rfl rfl
  have hspawn : Concur (execve w path argv envp s) (execFrom w ⟨atFdcwd, 0, ldsoPosixSpawn, .posixSpawn⟩
      path argv envp s) ↔ _ := concur_unwritten (fun _ => rfl) rfl rfl rfl
  rw [execveat, posixSpawn, hat, hspawn, and_self]
  simp only [ldsoExecve_enosys_iff]

end

/-! ## A run that comes to the loader -/

theorem Exec.bind_of_ok {α β : Type} {x : Exec α} {f : α → Exec β} {a : α} {s s₁ : ExecState} (h : x s = .ok a s₁) :
    (x >>= f) s = f a s₁ := by
  show Exec.bind x f s = _
  rw [Exec.bind, h]

section
variable {w : ExecWorld} {dfd : Int} {path buf argv0 hashbang program : Str} {arg : Option Str} {atflags : Word}
  {argv : List Str} {s s₁ s₂ s₃ s₄ : ExecState} {root : Option Str} {I : Slots} {ret off : Nat}

theorem getenv_of_some {name : Str} (h : getenv s.env name = some root) : Exec.getenv name s = .ok root s := by
  rw [Exec.getenv, h]

theorem resolveAt_done {bufsiz : Nat} (hroot : getenv s.env "IAMROOT_ROOT".toList = some root)
    (hr : pathResolution w.host root w.re w.fuel bufsiz atflags s.errno dfd path = .done buf) :
    resolveAt w dfd path bufsiz atflags s = .ok buf { s with errno := w.resolvedErrno root s.errno path } := by
  show Exec.bind (Exec.getenv _) _ s = _
  unfold Exec.bind
  rw [getenv_of_some hroot]
  dsimp only
  rw [hr]

variable (hx : execIgnored w path = false) (hr : resolveAt w dfd path execBufsiz atflags s = .ok buf s₁)
  (hc : canExec w buf s₁ = .ok true s₂) (hroot : getenv s₂.env "IAMROOT_ROOT".toList = some root) (hin : inchroot root = true)
include hx hr hc hroot hin

theorem execStage_binary (hs : Exec.orNone .ENOEXEC
      (interpreterScript w buf (execBufsiz - (buf.length + 1)) (Slots.empty.set 0 (some argv0))) s₂ = .ok none s₃) :
    execStage w dfd path atflags (argv0 :: argv) s =
      .ok (.loader buf buf (Slots.empty.set 0 (some argv0)) (buf.length + 1)) s₃ := by
  rw [execStage, hx, if_neg Bool.false_ne_true, Exec.bind_of_ok hr]
  dsimp only
  rw [Exec.bind_of_ok hc, Bool.not_true, if_neg Bool.false_ne_true, Exec.bind_of_ok (getenv_of_some hroot), hin, Bool.not_true,
    if_neg Bool.false_ne_true, Exec.bind_of_ok hs]
  rfl

theorem execStage_script (hs : Exec.orNone .ENOEXEC
      (interpreterScript w buf (execBufsiz - (buf.length + 1)) (Slots.empty.set 0 (some argv0))) s₂ =
        .ok (some (I, ret, hashbang, arg)) s₃)
    (ho : off = buf.length + 1 + (hashbang.length + 1) + (arg.elim 0 fun a => a.length + 1))
    (hp : resolveAt w atFdcwd hashbang (execBufsiz - off) 0 s₃ = .ok program s₄) :
    execStage w dfd path atflags (argv0 :: argv) s =
      .ok (.loader buf program (I.set (ret - 1) (some path)) (off + (program.length + 1))) s₄ := by
  rw [execStage, hx, if_neg Bool.false_ne_true, Exec.bind_of_ok hr]
  dsimp only
  rw [Exec.bind_of_ok hc, Bool.not_true, if_neg Bool.false_ne_true, Exec.bind_of_ok (getenv_of_some hroot), hin, Bool.not_true,
    if_neg Bool.false_ne_true, Exec.bind_of_ok hs]
  dsimp only
  rw [← ho, Exec.bind_of_ok hp]
  rfl

end

/-! ## A script with the name of a loader -/

def namedFs : FileSystem :=
  .ofList [([['r']], .dir), (["bin".toList, ['r']], .dir), (["ld.so".toList, "bin".toList, ['r']], .file)] (by decide)

def namedWorld : ExecWorld where
  host := namedFs.host [] fun _ => none
  re := some fun _ => false
  execRe := some fun s => s = "mountpoint".toList
  ldsoRe := some fun s => s = "ld.so".toList
  fuel := 20
  resolvedErrno _ e _ := e
  mode _ := .ok 0o755
  file _ := .ok ⟨0o755, 0, .ok []⟩
  hasInterp _ := .ok false
  interp _ := .error .ENOEXEC
  interpLdsoAbi _ := .error .ENOEXEC
  ldLinuxVersion _ _ := .error .ENOTSUP
  ldPreload _ _ _ _ := .ok []
  ldLibraryPath _ _ _ := .ok []
  preloadLibiamroot e := some e
  hostPathAccess _ := none
  faccess _ := .error .ENOENT
  ldTraceLoaderObjects _ _ := .ok ()
  execSh := "/usr/lib/iamroot/exec.sh".toList
  version := "24".toList

def namedState : ExecState where
  env := Env.start (fun _ => "IAMROOT_ROOT=/r".toList) [0]
  errno := none

theorem named_root : getenv namedState.env "IAMROOT_ROOT".toList = some (some "/r".toList) := by decide

/-- What the walks of `path` below the root directory come to. -/
theorem named_resolves {w : ExecWorld} {s : ExecState} {path buf : Str} {bufsiz : Nat} (hroot : getenv s.env "IAMROOT_ROOT".toList = some (some "/r".toList))
    (ho : Ordinary w.re 0 path) (hbuf : pathMax ≤ bufsiz) (hlen : (textOf (some "/r".toList) path).length < pathMax)
    (h1 : (walkText w.host (some "/r".toList) w.fuel (pathSanitize (textOf (some "/r".toList) path)) 0).map
      (Reading.absolute w.host) = some (.done buf))
    (hs : buf.length < pathMax) (hign : ignore w.re (buf.drop (strlen (rootOf (some "/r".toList)))) = false)
    (h2 : (walkText w.host (some "/r".toList) w.fuel buf 0).map (Reading.absolute w.host) = some (.done buf)) :
    resolveAt w atFdcwd path bufsiz 0 s = .ok buf { s with errno := w.resolvedErrno (some "/r".toList) s.errno path } :=
  resolveAt_done hroot (pathResolution_text ho hbuf (by omega) (by decide) h1 ⟨hs, hs⟩ (fun _ => hign) h2)

set_option maxRecDepth 20000 in
theorem named_stage : execStage namedWorld atFdcwd "/bin/ld.so".toList 0 ["ld.so".toList] namedState =
    .ok (.loader "/r/bin/ld.so".toList "/r/bin/sh".toList
      ((Slots.empty.set 0 (some "/bin/sh".toList)).set 1 (some "/bin/ld.so".toList)) 31) namedState := by
  have hpath : resolveAt namedWorld atFdcwd "/bin/ld.so".toList execBufsiz 0 namedState =
      .ok "/r/bin/ld.so".toList namedState :=
    named_resolves named_root ⟨by decide, by decide, by decide⟩ (by decide) (by decide) (by decide) (by decide) (by decide)
      (by decide)
  have hshell : resolveAt namedWorld atFdcwd pathBshell (execBufsiz - 21) 0 namedState = .ok "/r/bin/sh".toList namedState :=
    named_resolves named_root ⟨by decide, by decide, by decide⟩ (by decide) (by decide) (by decide) (by decide) (by decide)
      (by decide)
  exact execStage_script (by decide) hpath rfl named_root (by decide) rfl rfl hshell

/-- `execve` hands the script over, and `execveat` and `posix_spawn` say that they cannot. -/
theorem execs_agree_named :
    ¬ Concur (execve namedWorld "/bin/ld.so".toList ["ld.so".toList] .environ namedState)
      (execveat namedWorld atFdcwd "/bin/ld.so".toList ["ld.so".toList] .environ 0 namedState) := by
  have hat : Concur (execve namedWorld "/bin/ld.so".toList ["ld.so".toList] .environ namedState)
      (execFrom namedWorld ⟨atFdcwd, 0, ldsoExecveat, fun a => .execveat atFdcwd a 0⟩ "/bin/ld.so".toList ["ld.so".toList]
        .environ namedState) ↔ _ := concur_unwritten (fun _ => rfl) rfl rfl rfl
  rw [execveat, hat]
  intro h
  obtain ⟨s, hs⟩ := h namedState ⟨by decide, .environ, namedState, _, _, _, _, rfl, named_stage⟩
  have hagain : ldsoExecve namedWorld ["ld.so".toList] namedState =
      .err (some .EAGAIN) { namedState with errno := some .EAGAIN } := rfl
  cases hagain.symm.trans hs

end Iamroot
