import Iamroot.Lib.DepthFirst
import Iamroot.PathList

/-!
# Walking the needed objects

`dlopen` in the chroot opens the `DT_NEEDED` objects of an object before the
object, and the tracing of the loaded objects prints them so. Both consult a
record, of what the loader has opened or of what was printed, and both write it
when the objects needed are done: an object in progress is not in it. The
preloading of objects, which does the same walk, records an object first.
-/

namespace Iamroot

open DepthFirst

/-- The shared objects, and what the ELF reader and the search for a name say of them. -/
structure Objects (Obj : Type) where
  path : Obj → Str
  /-- `next_open`. -/
  opens : Obj → Bool
  /-- `__felf_so_context`. -/
  context : Obj → Bool
  /-- `__felf_needed`. -/
  needed : Obj → Option (List Str)
  /-- What `__ldso_access` finds for a name, in the context of an object or of the executable. -/
  access : Option Obj → Str → Option Obj
  /-- `__is_lib` of the base name. -/
  isLib : Obj → Bool
  /-- `next_dlopen`. -/
  loads : Obj → Bool

section
variable {Obj : Type} [DecidableEq Obj] (g : Objects Obj)

/-- `__path_iterate`: it stops at the first callback that fails. The nodes are those
that the callbacks have walked. -/
def pathIterate {S : Type} (callback : Str → S → Out Obj S) : List Str → S → Out Obj S
  | [], s => some (.done s, [])
  | t :: ts, s =>
    match callback t s with
    | none => none
    | some (.done s', xs) => (pathIterate callback ts s').map fun r => (r.1, xs ++ r.2)
    | some (r, xs) => some (r, xs)

/-! ## `__dlopen_needed` -/

/-- The loader's list of the opened objects, after `next_dlopen`. -/
def dlopened (q : Obj) (opened : List Obj) : Res (List Obj) :=
  if g.loads q then .done (if q ∈ opened then opened else opened ++ [q]) else .fail

def ldOpenNeededCallback (ldOpenNeeded : Obj → List Obj → Out Obj (List Obj)) (by_ : Obj) (needed : Str)
    (opened : List Obj) : Out Obj (List Obj) :=
  match g.access (some by_) needed with
  | none => some (.fail, [])
  | some buf =>
    match ldOpenNeeded buf opened with
    | some (.done opened', xs) => some (dlopened g buf opened', xs)
    | r => r

def ldOpenNeeded : Nat → Obj → List Obj → Out Obj (List Obj)
  | 0, _, _ => none
  | fuel + 1, path, opened =>
    if g.opens path = false then some (.fail, [])
    else if path ∈ opened then some (.done opened, [])
    else if g.context path = false then some (.fail, [])
    else
      match g.needed path with
      | none => some (.fail, [])
      | some needed =>
        (pathIterate (ldOpenNeededCallback g (ldOpenNeeded fuel) path) needed opened).map fun r => (r.1, path :: r.2)

/-! ## `LD_TRACE_LOADED_OBJECTS` -/

def pathText (buf : List Obj) : Str := List.intercalate [':'] (buf.map g.path)

def addPath (bufsiz : Nat) (buf : List Obj) (path : Obj) : Res (List Obj) :=
  match pathStrncat (pathText g buf) (g.path path) bufsiz with
  | .error _ => .full
  | .ok _ => .done (buf ++ [path])

def ldTraceLoaderObjectsNeededCallback (ldTraceNeeded : Obj → List Obj → Out Obj (List Obj)) (so : Str)
    (buf : List Obj) : Out Obj (List Obj) :=
  match g.access none so with
  | none => some (.done buf, [])
  | some path =>
    if g.isLib path = false then some (.done buf, [])
    else if path ∈ buf then some (.done buf, [])
    else ldTraceNeeded path buf

def ldTraceLoaderObjectsNeeded (bufsiz : Nat) : Nat → Obj → List Obj → Out Obj (List Obj)
  | 0, _, _ => none
  | fuel + 1, path, buf =>
    match if g.opens path then g.needed path else none with
    | none => some (.fail, [])
    | some needed =>
      match pathIterate (ldTraceLoaderObjectsNeededCallback g (ldTraceLoaderObjectsNeeded bufsiz fuel)) needed buf with
      | none => none
      | some (.done buf', xs) => some (addPath g bufsiz buf' path, path :: xs)
      | some (r, xs) => some (r, path :: xs)

/-- `__fld_trace_loader_objects_executable`, from the objects that the executable needs. -/
def fldTraceLoaderObjectsExecutable (bufsiz fuel : Nat) (needed : List Str) : Out Obj (List Obj) :=
  pathIterate (ldTraceLoaderObjectsNeededCallback g (ldTraceLoaderObjectsNeeded g bufsiz fuel)) needed []

/-! ## The two as depth-first walks -/

def openEntry (by_ : Obj) (needed : Str) : Item Obj :=
  match g.access (some by_) needed with
  | none => .lost
  | some q => .node q

def openWalk : Walk Obj (List Obj) where
  entries p := ((g.needed p).getD []).map (openEntry g p)
  shut p := !g.opens p || !g.context p || (g.needed p).isNone
  seen opened q := q ∈ opened
  again q := g.opens q && g.loads q
  leaves q := g.loads q
  leave q opened := dlopened g q opened
  leave_done := by
    intro q s s' h
    unfold dlopened at h
    split at h
    next hl =>
      cases h
      refine ⟨hl, fun x => ?_⟩
      split
      next hq => simp [or_iff_right_of_imp (fun h : x = q => h ▸ hq)]
      next => simp [or_comm]
    · cases h
  leave_fail := by
    intro q s h
    unfold dlopened at h
    split at h
    · cases h
    next hl => simpa using hl
  again_ok := by
    intro q hs hl
    simp at hs
    simp [hs.1, hl]

def traceEntry (so : Str) : Item Obj :=
  match g.access none so with
  | none => .skipped
  | some q => if g.isLib q then .node q else .skipped

omit [DecidableEq Obj] in
theorem addPath_cases (bufsiz : Nat) (buf : List Obj) (q : Obj) :
    addPath g bufsiz buf q = .full ∨ addPath g bufsiz buf q = .done (buf ++ [q]) := by
  unfold addPath
  split
  · exact Or.inl rfl
  · exact Or.inr rfl

def traceWalk (bufsiz : Nat) : Walk Obj (List Obj) where
  entries p := ((g.needed p).getD []).map (traceEntry g)
  shut p := !g.opens p || (g.needed p).isNone
  seen buf q := q ∈ buf
  again _ := true
  leaves _ := true
  leave q buf := addPath g bufsiz buf q
  leave_done := by
    intro q s s' h
    rcases addPath_cases g bufsiz s q with hf | hd
    · cases h.symm.trans hf
    · cases h.symm.trans hd
      simp [or_comm]
  leave_fail := by
    intro q s h
    rcases addPath_cases g bufsiz s q with hf | hd
    · cases h.symm.trans hf
    · cases h.symm.trans hd
  again_ok := fun _ _ => rfl

variable {g}

omit [DecidableEq Obj] in
theorem pathIterate_mono {S : Type} {f f' : Str → S → Out Obj S} (h : ∀ t s r, f t s = some r → f' t s = some r) :
    ∀ (ts : List Str) (s : S) (r : Res S × List Obj), pathIterate f ts s = some r → pathIterate f' ts s = some r := by
  intro ts
  induction ts with
  | nil => exact fun _ _ hr => hr
  | cons t ts ih =>
    intro s r hr
    simp only [pathIterate] at hr ⊢
    cases hf : f t s with
    | none => simp [hf] at hr
    | some o =>
      rw [h t s o hf]
      rw [hf] at hr
      obtain ⟨res, xs⟩ := o
      cases res with
      | done s' =>
        simp only [Option.map_eq_some_iff] at hr ⊢
        obtain ⟨r', hr', hr⟩ := hr
        exact ⟨r', ih s' r' hr', hr⟩
      | fail | full => exact hr

omit [DecidableEq Obj] in
/-- The loop over the entries that names stand for, one name at a time. -/
theorem along_map {S : Type} (visit : Obj → S → Out Obj S) (entry : Str → Item Obj) :
    ∀ (ts : List Str) (s : S), along visit (ts.map entry) s = pathIterate (fun t s => along visit [entry t] s) ts s := by
  intro ts
  induction ts with
  | nil => exact fun _ => rfl
  | cons t ts ih =>
    intro s
    rw [List.map_cons, pathIterate]
    cases entry t with
    | lost => rfl
    | skipped =>
      simp only [along, ih]
      cases pathIterate (fun t s => along visit [entry t] s) ts s <;> rfl
    | node q =>
      simp only [along]
      cases visit q s with
      | none => rfl
      | some o =>
        obtain ⟨res, xs⟩ := o
        cases res with
        | done s' => simp [ih]
        | fail | full => rfl

omit [DecidableEq Obj] in
theorem along_node {S : Type} (visit : Obj → S → Out Obj S) (q : Obj) (s : S) : along visit [.node q] s = visit q s := by
  simp only [along]
  cases visit q s with
  | none => rfl
  | some o =>
    obtain ⟨res, xs⟩ := o
    cases res <;> simp

/-! ### `dlopen` -/

/-- The walk of an object is `__ld_open_needed`, then `dlopen`. -/
def opening (g : Objects Obj) (q : Obj) : Out Obj (List Obj) → Out Obj (List Obj)
  | some (.done s', xs) => some (dlopened g q s', xs)
  | r => r

theorem openCallback_eq {fuel : Nat} (h : ∀ q s, (openWalk g).visit fuel q s = opening g q (ldOpenNeeded g fuel q s))
    (path : Obj) (t : Str) (s : List Obj) :
    ldOpenNeededCallback g (ldOpenNeeded g fuel) path t s = along ((openWalk g).visit fuel) [openEntry g path t] s := by
  rw [openEntry, ldOpenNeededCallback]
  cases g.access (some path) t with
  | none => rfl
  | some q =>
    rw [along_node, h]
    rfl

theorem openVisit_eq : ∀ (fuel : Nat) (q : Obj) (s : List Obj),
    (openWalk g).visit fuel q s = opening g q (ldOpenNeeded g fuel q s) := by
  intro fuel
  induction fuel with
  | zero => exact fun _ _ => rfl
  | succ fuel ih =>
    intro q s
    by_cases ho : g.opens q = true
    · by_cases hs : q ∈ s
      · simp [Walk.visit, openWalk, ldOpenNeeded, opening, hs, ho, dlopened]
      · by_cases hc : g.context q = true
        · cases hn : g.needed q with
          | none => simp [Walk.visit, openWalk, ldOpenNeeded, opening, hs, ho, hc, hn]
          | some needed =>
            have he : (openWalk g).entries q = needed.map (openEntry g q) := by simp [openWalk, hn]
            have hseen : ¬ (openWalk g).seen s q = true := by simp [openWalk, hs]
            have hshut : ¬ (openWalk g).shut q = true := by simp [openWalk, ho, hc, hn]
            have hloop : pathIterate (ldOpenNeededCallback g (ldOpenNeeded g fuel) q) needed s =
                along ((openWalk g).visit fuel) (needed.map (openEntry g q)) s := by
              rw [along_map]
              congr 1
              funext t s
              exact openCallback_eq ih q t s
            rw [Walk.visit, if_neg hseen, if_neg hshut, he, ← hloop]
            simp only [ldOpenNeeded, ho, hs, hc, hn, if_false, Bool.true_eq_false]
            cases pathIterate (ldOpenNeededCallback g (ldOpenNeeded g fuel) q) needed s with
            | none => rfl
            | some o =>
              obtain ⟨res, xs⟩ := o
              cases res <;> rfl
        · simp [Walk.visit, openWalk, ldOpenNeeded, opening, hs, ho, hc]
    · by_cases hs : q ∈ s <;> simp [Walk.visit, openWalk, ldOpenNeeded, opening, hs, ho]

/-! ### The tracing -/

theorem traceCallback_of_along {bufsiz fuel : Nat}
    (h : ∀ q buf r, q ∉ buf → (traceWalk g bufsiz).visit fuel q buf = some r → ldTraceLoaderObjectsNeeded g bufsiz fuel q buf = some r)
    (t : Str) (buf : List Obj) (r : Res (List Obj) × List Obj)
    (hr : along ((traceWalk g bufsiz).visit fuel) [traceEntry g t] buf = some r) :
    ldTraceLoaderObjectsNeededCallback g (ldTraceLoaderObjectsNeeded g bufsiz fuel) t buf = some r := by
  unfold traceEntry at hr
  unfold ldTraceLoaderObjectsNeededCallback
  cases ha : g.access none t with
  | none => simpa only [ha, along] using hr
  | some q =>
    simp only [ha] at hr ⊢
    by_cases hl : g.isLib q = true
    · simp only [hl, if_true, along_node] at hr
      simp only [hl, if_false, Bool.true_eq_false]
      by_cases hq : q ∈ buf
      · cases fuel with
        | zero => cases hr
        | succ fuel =>
          simp only [Walk.visit, traceWalk, hq, decide_true, if_true] at hr
          rw [if_pos hq]
          exact hr
      · rw [if_neg hq]
        exact h q buf r hq hr
    · simp only [hl, Bool.false_eq_true, if_false] at hr
      simp only [hl, if_true]
      exact hr

theorem along_of_traceCallback {bufsiz fuel : Nat}
    (h : ∀ q buf r, q ∉ buf → ldTraceLoaderObjectsNeeded g bufsiz fuel q buf = some r → (traceWalk g bufsiz).visit (fuel + 1) q buf = some r)
    (t : Str) (buf : List Obj) (r : Res (List Obj) × List Obj)
    (hr : ldTraceLoaderObjectsNeededCallback g (ldTraceLoaderObjectsNeeded g bufsiz fuel) t buf = some r) :
    along ((traceWalk g bufsiz).visit (fuel + 1)) [traceEntry g t] buf = some r := by
  unfold ldTraceLoaderObjectsNeededCallback at hr
  unfold traceEntry
  cases ha : g.access none t with
  | none => simpa only [ha, along] using hr
  | some q =>
    simp only [ha] at hr ⊢
    by_cases hl : g.isLib q = true
    · simp only [hl, if_false, Bool.true_eq_false] at hr
      simp only [hl, if_true, along_node]
      by_cases hq : q ∈ buf
      · rw [if_pos hq] at hr
        rw [← hr]
        simp [Walk.visit, traceWalk, hq]
      · rw [if_neg hq] at hr
        exact h q buf r hq hr
    · simp only [hl, if_true] at hr
      simp only [hl, Bool.false_eq_true, if_false]
      exact hr

theorem traceEntries {bufsiz : Nat} {q : Obj} {needed : List Str} (hn : g.needed q = some needed) :
    (traceWalk g bufsiz).entries q = needed.map (traceEntry g) := by simp [traceWalk, hn]

theorem trace_shut {bufsiz : Nat} {q : Obj} :
    (traceWalk g bufsiz).shut q = true ↔ (if g.opens q then g.needed q else none) = none := by
  by_cases ho : g.opens q = true <;> simp [traceWalk, ho]

theorem trace_of_visit {bufsiz : Nat} : ∀ (fuel : Nat) (q : Obj) (buf : List Obj) (r : Res (List Obj) × List Obj), q ∉ buf →
    (traceWalk g bufsiz).visit fuel q buf = some r → ldTraceLoaderObjectsNeeded g bufsiz fuel q buf = some r := by
  intro fuel
  induction fuel with
  | zero => intro q buf r _ h; cases h
  | succ fuel ih =>
    intro q buf r hq h
    have hseen : ¬ (traceWalk g bufsiz).seen buf q = true := by simp [traceWalk, hq]
    rw [Walk.visit, if_neg hseen] at h
    rw [ldTraceLoaderObjectsNeeded]
    cases hn : (if g.opens q then g.needed q else none) with
    | none =>
      rw [if_pos (trace_shut.mpr hn)] at h
      exact h
    | some needed =>
      have hshut : ¬ (traceWalk g bufsiz).shut q = true := by simp [trace_shut, hn]
      have hneed : g.needed q = some needed := by
        split at hn
        · exact hn
        · cases hn
      rw [if_neg hshut, traceEntries hneed, along_map] at h
      dsimp only
      cases hl : pathIterate (fun t s => along ((traceWalk g bufsiz).visit fuel) [traceEntry g t] s) needed buf with
      | none => simp [hl] at h
      | some o =>
        rw [pathIterate_mono (traceCallback_of_along ih) needed buf o hl]
        rw [hl] at h
        obtain ⟨res, xs⟩ := o
        cases res <;> exact h

theorem visit_of_trace {bufsiz : Nat} : ∀ (fuel : Nat) (q : Obj) (buf : List Obj) (r : Res (List Obj) × List Obj), q ∉ buf →
    ldTraceLoaderObjectsNeeded g bufsiz fuel q buf = some r → (traceWalk g bufsiz).visit (fuel + 1) q buf = some r := by
  intro fuel
  induction fuel with
  | zero => intro q buf r _ h; cases h
  | succ fuel ih =>
    intro q buf r hq h
    have hseen : ¬ (traceWalk g bufsiz).seen buf q = true := by simp [traceWalk, hq]
    rw [Walk.visit, if_neg hseen]
    rw [ldTraceLoaderObjectsNeeded] at h
    cases hn : (if g.opens q then g.needed q else none) with
    | none =>
      rw [hn] at h
      rw [if_pos (trace_shut.mpr hn)]
      exact h
    | some needed =>
      have hshut : ¬ (traceWalk g bufsiz).shut q = true := by simp [trace_shut, hn]
      have hneed : g.needed q = some needed := by
        split at hn
        · exact hn
        · cases hn
      rw [if_neg hshut, traceEntries hneed, along_map]
      rw [hn] at h
      dsimp only at h
      cases hl : pathIterate (ldTraceLoaderObjectsNeededCallback g (ldTraceLoaderObjectsNeeded g bufsiz fuel)) needed buf with
      | none => simp [hl] at h
      | some o =>
        rw [pathIterate_mono (along_of_traceCallback ih) needed buf o hl]
        rw [hl] at h
        obtain ⟨res, xs⟩ := o
        cases res <;> exact h

/-! ## When the walks end -/

variable (g)

/-- No object that is tried from `p` needs itself in turn, where nothing is tried of
an object that is opened or that cannot be read, nor behind an object that
cannot be found or opened. -/
def OpenAcyclic (opened : List Obj) (p : Obj) : Prop := (openWalk g).Acyclic opened p

/-- The same of the objects that the tracing comes to from the names `needed`. -/
def TraceAcyclic (bufsiz : Nat) (needed : List Str) : Prop :=
  (traceWalk g bufsiz).NoCycle [] (needed.map (traceEntry g))

variable {g}

theorem ldOpenNeeded_ends [Finite Obj] {opened : List Obj} {p : Obj} (h : OpenAcyclic g opened p) :
    ∃ n r, ldOpenNeeded g n p opened = some r ∧ r.2.Nodup := by
  obtain ⟨n, r, hv, hleft, -⟩ := Walk.visit_ends (Walk.acyclic_iff.mp h) opened (Walk.Inv.start _ _)
  rw [openVisit_eq] at hv
  cases ho : ldOpenNeeded g n p opened with
  | none => simp [ho, opening] at hv
  | some o =>
    refine ⟨n, o, ho, ?_⟩
    obtain ⟨res, xs⟩ := o
    rw [ho] at hv
    have hxs : xs = r.2 := by
      cases res <;> exact congrArg Prod.snd (Option.some.inj hv)
    exact hxs ▸ hleft.nodup

theorem openAcyclic_of_ends [Finite Obj] {opened : List Obj} {p : Obj} {n : Nat} {r : Res (List Obj) × List Obj}
    (h : ldOpenNeeded g n p opened = some r) : OpenAcyclic g opened p := by
  have hroom : ∀ (q : Obj) (s : List Obj), (openWalk g).leave q s ≠ .full := by
    intro q s
    simp only [openWalk, dlopened]
    split <;> nofun
  have hv : ∃ r', (openWalk g).visit n p opened = some r' := by
    rw [openVisit_eq, h]
    obtain ⟨res, xs⟩ := r
    cases res <;> exact ⟨_, rfl⟩
  obtain ⟨r', hv⟩ := hv
  exact Walk.acyclic_iff.mpr
    (Walk.visit_back n p opened r' hv (Walk.Inv.start _ _) (Walk.visit_ne_full hroom n p opened r' hv)).1

theorem fldTrace_ends [Finite Obj] {bufsiz : Nat} {needed : List Str} (h : TraceAcyclic g bufsiz needed) :
    ∃ n r, fldTraceLoaderObjectsExecutable g bufsiz n needed = some r ∧ r.2.Nodup := by
  obtain ⟨n, r, hl, hnodup⟩ := Walk.along_of_noCycle h
  rw [along_map] at hl
  exact ⟨n, r, pathIterate_mono (traceCallback_of_along (trace_of_visit n)) needed [] r hl, hnodup⟩

theorem traceAcyclic_of_ends [Finite Obj] {bufsiz n : Nat} {needed : List Str} {r : Res (List Obj) × List Obj}
    (h : fldTraceLoaderObjectsExecutable g bufsiz n needed = some r) (hr : r.1 ≠ .full) : TraceAcyclic g bufsiz needed := by
  have hl := pathIterate_mono (along_of_traceCallback (visit_of_trace n)) needed [] r h
  rw [← along_map] at hl
  exact Walk.noCycle_of_along hl hr

/-- **The walks of the needed objects.** `__dlopen_needed` of an object ends, having walked
no object twice, if and only if no object that it tries needs itself in turn. So does the
tracing, which may also end on a cycle when its buffer is full before. -/
theorem needed_walks_end_iff [Finite Obj] (g : Objects Obj) :
    (∀ opened p, (∃ n r, ldOpenNeeded g n p opened = some r ∧ r.2.Nodup) ↔ OpenAcyclic g opened p) ∧
    (∀ bufsiz needed, TraceAcyclic g bufsiz needed →
      ∃ n r, fldTraceLoaderObjectsExecutable g bufsiz n needed = some r ∧ r.2.Nodup) ∧
    (∀ bufsiz needed n r, fldTraceLoaderObjectsExecutable g bufsiz n needed = some r →
      TraceAcyclic g bufsiz needed ∨ r.1 = .full) := by
  refine ⟨fun opened p => ⟨?_, ldOpenNeeded_ends⟩, fun bufsiz needed => fldTrace_ends, ?_⟩
  · intro h
    obtain ⟨n, r, h, -⟩ := h
    exact openAcyclic_of_ends h
  · intro bufsiz needed n r h
    by_cases hr : r.1 = .full
    · exact .inr hr
    · exact .inl (traceAcyclic_of_ends h hr)

def twoObjects : Objects Bool where
  path p := if p then ['/', 'b'] else ['/', 'l']
  opens _ := true
  context _ := true
  needed p := some (if p then [['l']] else [])
  access _ name := if name = ['b'] then some true else if name = ['l'] then some false else none
  isLib _ := true
  loads _ := true

theorem twoObjects_acyclic {S : Type} {w : Walk Bool S} {s : S} (htrue : w.entries true = [.node false])
    (hfalse : w.entries false = []) (x : Bool) : w.Acyclic s x := by
  have htried : ∀ p q, w.Tried s p q → p = true ∧ q = false := by
    intro p q h
    obtain ⟨-, -, l₁, l₂, heq, -⟩ := h
    have hm : Item.node q ∈ w.entries p := heq ▸ List.mem_append_right _ List.mem_cons_self
    cases p with
    | false =>
      rw [hfalse] at hm
      cases hm
    | true =>
      rw [htrue] at hm
      cases List.mem_singleton.mp hm
      exact ⟨rfl, rfl⟩
  intro y _ hy
  obtain ⟨z, hz, -⟩ := Relation.TransGen.head'_iff.mp hy
  obtain ⟨z', -, hz'⟩ := Relation.TransGen.tail'_iff.mp hy
  have hcycle := (htried y z hz).1.symm.trans (htried z' y hz').2
  exact absurd hcycle (by decide)

theorem needed_walks_end_two : (∃ n r, ldOpenNeeded twoObjects n true [] = some r ∧ r.2.Nodup) ∧
    ∃ n r, fldTraceLoaderObjectsExecutable twoObjects pathMax n [['b'], ['l']] = some r ∧ r.2.Nodup := by
  constructor
  · exact ((needed_walks_end_iff twoObjects).1 [] true).mpr (twoObjects_acyclic rfl rfl true)
  · exact (needed_walks_end_iff twoObjects).2.1 pathMax [['b'], ['l']] fun q _ => twoObjects_acyclic rfl rfl q

def selfNeeded : Objects Unit where
  path _ := ['/', 'l']
  opens _ := true
  context _ := true
  needed _ := some [['l']]
  access _ _ := some ()
  isLib _ := true
  loads _ := true

/-- Neither walk of a library that needs itself ever ends. -/
theorem needed_walks_never_end : (∀ n, ldOpenNeeded selfNeeded n () [] = none) ∧
    ∀ n, fldTraceLoaderObjectsExecutable selfNeeded pathMax n [['l']] = none := by
  have hopen : ∀ n, ldOpenNeeded selfNeeded n () [] = none := by
    intro n
    induction n with
    | zero => rfl
    | succ n ih =>
      have hc : ldOpenNeededCallback selfNeeded (ldOpenNeeded selfNeeded n) () ['l'] [] = none := by
        simp only [ldOpenNeededCallback, show selfNeeded.access (some ()) ['l'] = some () from rfl, ih]
      have hi : pathIterate (ldOpenNeededCallback selfNeeded (ldOpenNeeded selfNeeded n) ()) [['l']] [] = none := by
        rw [pathIterate, hc]
      exact congrArg (Option.map fun r => (r.1, () :: r.2)) hi
  have hcall : ∀ n, ldTraceLoaderObjectsNeeded selfNeeded pathMax n () [] = none →
      pathIterate (ldTraceLoaderObjectsNeededCallback selfNeeded (ldTraceLoaderObjectsNeeded selfNeeded pathMax n))
        [['l']] [] = none := by
    intro n h
    have hc : ldTraceLoaderObjectsNeededCallback selfNeeded (ldTraceLoaderObjectsNeeded selfNeeded pathMax n) ['l'] [] =
        ldTraceLoaderObjectsNeeded selfNeeded pathMax n () [] := rfl
    rw [pathIterate, hc, h]
  have htrace : ∀ n, ldTraceLoaderObjectsNeeded selfNeeded pathMax n () [] = none := by
    intro n
    induction n with
    | zero => rfl
    | succ n ih =>
      rw [ldTraceLoaderObjectsNeeded]
      simp only [show (if selfNeeded.opens () = true then selfNeeded.needed () else none) = some [['l']] from rfl,
        hcall n ih]
  exact ⟨hopen, fun n => hcall n (htrace n)⟩

end

end Iamroot
