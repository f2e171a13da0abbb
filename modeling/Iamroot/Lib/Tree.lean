import Mathlib.Data.List.Infix

/-!
# Walks in a tree of directories, files and symbolic links

A location is a list of names, innermost first. A walk consumes the components
of a path one by one; at a link the target is put before what is left of the
path, and the walk goes on where the target starts. The number of links that
may still be expanded bounds the recursion, so that a walk is a function. Where
absolute targets start, where `..` stays, and what is done with a last link or
a missing name are the rules of the walk: a kernel's, in a changed root or not,
or those of a program that resolves paths by itself.
-/

namespace FileTree

inductive Comp (ν : Type*) where
  | empty
  | dot
  | up
  | name (n : ν)
  deriving DecidableEq

inductive Node (ν : Type*) where
  | dir
  | file
  | link (absolute : Bool) (target : List (Comp ν))

structure DirTree (ν : Type*) where
  node : List ν → Option (Node ν)
  root_dir : node [] = some .dir
  parent_dir : ∀ {n ℓ}, node (n :: ℓ) ≠ none → node ℓ = some .dir

inductive Err where
  | notDir
  | noEnt
  | loop
  deriving DecidableEq

/-- `follow`: a link that ends the path is expanded; `keep`: the walk goes on below
a name that is missing. -/
structure Rules (ν : Type*) where
  top : List ν
  stop : List ν
  follow : Bool
  keep : Bool

inductive Move (ν : Type*) where
  | stop (e : Err)
  | go (ℓ : List ν)
  | expand (ℓ : List ν) (target : List (Comp ν))

section
variable {ν : Type*} [DecidableEq ν]

def Rules.parent (r : Rules ν) (ℓ : List ν) : List ν := if ℓ = r.stop then ℓ else ℓ.tail

def Comp.isEmpty : Comp ν → Bool
  | .empty => true
  | _ => false

namespace DirTree

def isFile (t : DirTree ν) (ℓ : List ν) : Bool :=
  match t.node ℓ with
  | some .file => true
  | _ => false

def isLink (t : DirTree ν) (ℓ : List ν) : Bool :=
  match t.node ℓ with
  | some (.link ..) => true
  | _ => false

def blank : DirTree ν where
  node
    | [] => some .dir
    | _ :: _ => none
  root_dir := rfl
  parent_dir h := absurd rfl h

variable (t : DirTree ν) (r : Rules ν)

/-- What the component `c` does at `ℓ` when `cs` is left behind it. Slashes may end the
path of a missing name. -/
def move (ℓ : List ν) (c : Comp ν) (cs : List (Comp ν)) : Move ν :=
  match c with
  | .empty | .dot => if t.isFile ℓ then .stop .notDir else .go ℓ
  | .up => if t.isFile ℓ then .stop .notDir else .go (r.parent ℓ)
  | .name n =>
    match t.node (n :: ℓ) with
    | some (.link absolute target) =>
      if r.follow || !cs.isEmpty then .expand (if absolute then r.top else ℓ) target else .go (n :: ℓ)
    | some _ => .go (n :: ℓ)
    | none =>
      if t.isFile ℓ then .stop .notDir
      else if r.keep || cs.all Comp.isEmpty then .go (n :: ℓ)
      else .stop .noEnt

def walkWith (n : Nat) (expand : List ν → List (Comp ν) → Except Err (List ν × Nat)) :
    List ν → List (Comp ν) → Except Err (List ν × Nat)
  | ℓ, [] => .ok (ℓ, n)
  | ℓ, c :: cs =>
    match t.move r ℓ c cs with
    | .stop e => .error e
    | .go ℓ' => walkWith n expand ℓ' cs
    | .expand ℓ' target => expand ℓ' (target ++ cs)

/-- The walk that may expand `n` links: where it ends, and how many it could still expand. -/
def walk : Nat → List ν → List (Comp ν) → Except Err (List ν × Nat)
  | 0 => t.walkWith r 0 fun _ _ => .error .loop
  | n + 1 => t.walkWith r (n + 1) (walk n)

def traceWith (expand : List ν → List (Comp ν) → List (List ν × List (Comp ν))) :
    List ν → List (Comp ν) → List (List ν × List (Comp ν))
  | ℓ, [] => [(ℓ, [])]
  | ℓ, c :: cs => (ℓ, c :: cs) ::
    match t.move r ℓ c cs with
    | .stop _ => []
    | .go ℓ' => traceWith expand ℓ' cs
    | .expand ℓ' target => expand ℓ' (target ++ cs)

/-- The states of that walk: each location, with the components left there. -/
def trace : Nat → List ν → List (Comp ν) → List (List ν × List (Comp ν))
  | 0 => t.traceWith r fun _ _ => []
  | n + 1 => t.traceWith r (trace n)

def Along (Q : List ν → List (Comp ν) → Prop) (n : Nat) (ℓ : List ν) (cs : List (Comp ν)) : Prop :=
  ∀ s ∈ t.trace r n ℓ cs, Q s.1 s.2

/-! ## One step of a walk -/

variable {t r} {n : Nat} {ℓ ℓ' : List ν} {c : Comp ν} {cs target : List (Comp ν)} {e : Err}

@[simp] theorem walk_nil (n : Nat) (ℓ : List ν) : t.walk r n ℓ [] = .ok (ℓ, n) := by
  cases n <;> rfl

section
variable {expand : List ν → List (Comp ν) → Except Err (List ν × Nat)}

theorem walkWith_stop (h : t.move r ℓ c cs = .stop e) : t.walkWith r n expand ℓ (c :: cs) = .error e := by
  rw [walkWith, h]

theorem walkWith_go (h : t.move r ℓ c cs = .go ℓ') :
    t.walkWith r n expand ℓ (c :: cs) = t.walkWith r n expand ℓ' cs := by
  rw [walkWith, h]

theorem walkWith_expand (h : t.move r ℓ c cs = .expand ℓ' target) :
    t.walkWith r n expand ℓ (c :: cs) = expand ℓ' (target ++ cs) := by
  rw [walkWith, h]

end

theorem walk_stop (h : t.move r ℓ c cs = .stop e) : t.walk r n ℓ (c :: cs) = .error e := by
  cases n <;> exact walkWith_stop h

theorem walk_go (h : t.move r ℓ c cs = .go ℓ') : t.walk r n ℓ (c :: cs) = t.walk r n ℓ' cs := by
  cases n <;> exact walkWith_go h

theorem walk_loop (h : t.move r ℓ c cs = .expand ℓ' target) : t.walk r 0 ℓ (c :: cs) = .error .loop :=
  walkWith_expand h

theorem walk_expand (h : t.move r ℓ c cs = .expand ℓ' target) :
    t.walk r (n + 1) ℓ (c :: cs) = t.walk r n ℓ' (target ++ cs) :=
  walkWith_expand h

/-- Induction on a walk: over the links that are left, and for each number of them over
the components. -/
theorem walk_induct (t : DirTree ν) (r : Rules ν) {P : Nat → List ν → List (Comp ν) → Prop}
    (nil : ∀ n ℓ, P n ℓ [])
    (stop : ∀ n ℓ c cs e, t.move r ℓ c cs = .stop e → P n ℓ (c :: cs))
    (go : ∀ n ℓ c cs ℓ', t.move r ℓ c cs = .go ℓ' → P n ℓ' cs → P n ℓ (c :: cs))
    (loop : ∀ ℓ c cs ℓ' target, t.move r ℓ c cs = .expand ℓ' target → P 0 ℓ (c :: cs))
    (expand : ∀ n ℓ c cs ℓ' target, t.move r ℓ c cs = .expand ℓ' target → P n ℓ' (target ++ cs) →
      P (n + 1) ℓ (c :: cs)) (n : Nat) (ℓ : List ν) (cs : List (Comp ν)) : P n ℓ cs := by
  induction n generalizing ℓ cs with
  | zero =>
    induction cs generalizing ℓ with
    | nil => exact nil 0 ℓ
    | cons c cs ih =>
      cases h : t.move r ℓ c cs with
      | stop e => exact stop 0 ℓ c cs e h
      | go ℓ' => exact go 0 ℓ c cs ℓ' h (ih ℓ')
      | expand ℓ' target => exact loop ℓ c cs ℓ' target h
  | succ n hn =>
    induction cs generalizing ℓ with
    | nil => exact nil (n + 1) ℓ
    | cons c cs ih =>
      cases h : t.move r ℓ c cs with
      | stop e => exact stop (n + 1) ℓ c cs e h
      | go ℓ' => exact go (n + 1) ℓ c cs ℓ' h (ih ℓ')
      | expand ℓ' target => exact expand n ℓ c cs ℓ' target h (hn ℓ' (target ++ cs))

section
variable {Q : List ν → List (Comp ν) → Prop}

theorem mem_trace_self (n : Nat) (ℓ : List ν) (cs : List (Comp ν)) : (ℓ, cs) ∈ t.trace r n ℓ cs := by
  cases n <;> cases cs <;> simp [trace, traceWith]

section
variable {expand : List ν → List (Comp ν) → List (List ν × List (Comp ν))}

theorem traceWith_stop (hm : t.move r ℓ c cs = .stop e) : t.traceWith r expand ℓ (c :: cs) = [(ℓ, c :: cs)] := by
  rw [traceWith, hm]

theorem traceWith_go (hm : t.move r ℓ c cs = .go ℓ') :
    t.traceWith r expand ℓ (c :: cs) = (ℓ, c :: cs) :: t.traceWith r expand ℓ' cs := by
  rw [traceWith, hm]

theorem traceWith_expand (hm : t.move r ℓ c cs = .expand ℓ' target) :
    t.traceWith r expand ℓ (c :: cs) = (ℓ, c :: cs) :: expand ℓ' (target ++ cs) := by
  rw [traceWith, hm]

end

theorem along_nil : t.Along r Q n ℓ [] ↔ Q ℓ [] := by
  cases n <;> exact List.forall_mem_singleton

theorem along_stop (hm : t.move r ℓ c cs = .stop e) : t.Along r Q n ℓ (c :: cs) ↔ Q ℓ (c :: cs) := by
  cases n <;> simp only [Along, trace, traceWith_stop hm, List.forall_mem_singleton]

theorem along_go (hm : t.move r ℓ c cs = .go ℓ') : t.Along r Q n ℓ (c :: cs) ↔ Q ℓ (c :: cs) ∧ t.Along r Q n ℓ' cs := by
  cases n <;> simp only [Along, trace, traceWith_go hm, List.forall_mem_cons]

theorem along_expand (hm : t.move r ℓ c cs = .expand ℓ' target) :
    t.Along r Q (n + 1) ℓ (c :: cs) ↔ Q ℓ (c :: cs) ∧ t.Along r Q n ℓ' (target ++ cs) := by
  simp only [Along, trace, traceWith_expand hm, List.forall_mem_cons]

theorem Along.head (h : t.Along r Q n ℓ cs) : Q ℓ cs := h _ (mem_trace_self n ℓ cs)

theorem Along.go (hm : t.move r ℓ c cs = .go ℓ') (h : t.Along r Q n ℓ (c :: cs)) : t.Along r Q n ℓ' cs :=
  ((along_go hm).mp h).2

theorem Along.expand (hm : t.move r ℓ c cs = .expand ℓ' target) (h : t.Along r Q (n + 1) ℓ (c :: cs)) :
    t.Along r Q n ℓ' (target ++ cs) :=
  ((along_expand hm).mp h).2

theorem Along.mono {Q' : List ν → List (Comp ν) → Prop} (hQ : ∀ ℓ cs, Q ℓ cs → Q' ℓ cs) (h : t.Along r Q n ℓ cs) :
    t.Along r Q' n ℓ cs := fun s hs => hQ _ _ (h s hs)

end

/-! ## Locations that are their own canonical path -/

def Clear (t : DirTree ν) : List ν → Prop
  | [] => True
  | m :: ℓ => Clear t ℓ ∧ t.isFile ℓ = false ∧ t.isLink (m :: ℓ) = false

instance decidableClear (t : DirTree ν) : ∀ ℓ : List ν, Decidable (t.Clear ℓ)
  | [] => inferInstanceAs (Decidable True)
  | m :: ℓ => @instDecidableAnd _ _ (decidableClear t ℓ)
    (inferInstanceAs (Decidable (t.isFile ℓ = false ∧ t.isLink (m :: ℓ) = false)))

omit [DecidableEq ν] in
theorem Clear.of_append : ∀ {ms : List ν}, t.Clear (ms ++ ℓ) → t.Clear ℓ
  | [], h => h
  | _ :: _, h => Clear.of_append h.1

omit [DecidableEq ν] in
theorem node_of_append : ∀ {ms : List ν}, t.node (ms ++ ℓ) ≠ none → t.node ℓ ≠ none
  | [], h => h
  | _ :: ms, h => by
    have hd : t.node (ms ++ ℓ) = some .dir := t.parent_dir h
    have hne : t.node (ms ++ ℓ) ≠ none := by rw [hd]; nofun
    exact node_of_append hne

omit [DecidableEq ν] in
theorem isFile_parent {m : ν} (h : t.node (m :: ℓ) ≠ none) : t.isFile ℓ = false := by
  simp only [isFile, t.parent_dir h]

theorem move_name_none {m : ν} (h : t.node (m :: ℓ) = none) (hf : t.isFile ℓ = false) :
    t.move r ℓ (.name m) cs = if r.keep || cs.all Comp.isEmpty then .go (m :: ℓ) else .stop .noEnt := by
  simp only [move, h, hf, Bool.false_eq_true, if_false]

theorem move_name_clear {m : ν} (h : t.node (m :: ℓ) ≠ none) (hl : t.isLink (m :: ℓ) = false) :
    t.move r ℓ (.name m) cs = .go (m :: ℓ) := by
  unfold isLink at hl
  cases hn : t.node (m :: ℓ) with
  | none => exact absurd hn h
  | some x =>
    cases x with
    | dir | file => simp only [move, hn]
    | link absolute target => simp [hn] at hl

theorem walk_names {ns : List ν} (hc : t.Clear (ns.reverse ++ ℓ)) (h : r.keep = true ∨ t.node (ns.reverse ++ ℓ) ≠ none) :
    t.walk r n ℓ (ns.map .name ++ cs) = t.walk r n (ns.reverse ++ ℓ) cs := by
  induction ns generalizing ℓ with
  | nil => rfl
  | cons m ns ih =>
    rw [List.reverse_cons, List.append_assoc, List.singleton_append] at hc h ⊢
    obtain ⟨-, hf, hl⟩ := Clear.of_append hc
    rw [← ih hc h]
    apply walk_go
    by_cases hn : t.node (m :: ℓ) = none
    · rw [move_name_none hn hf, if_pos]
      rcases h with hk | hk
      · rw [hk, Bool.true_or]
      · exact absurd hn (node_of_append hk)
    · exact move_name_clear hn hl

theorem walk_empties (hf : t.isFile ℓ = false) (h : cs.all Comp.isEmpty = true) : t.walk r n ℓ cs = .ok (ℓ, n) := by
  induction cs with
  | nil => exact walk_nil n ℓ
  | cons c cs ih =>
    rw [List.all_cons, Bool.and_eq_true] at h
    cases c with
    | empty =>
      have hm : t.move r ℓ .empty cs = .go ℓ := by simp only [move, hf, Bool.false_eq_true, if_false]
      rw [walk_go hm]
      exact ih h.2
    | dot | up | name m => cases h.1

theorem walk_names_missing (cs : List (Comp ν)) {ns : List ν} (hk : r.keep = false) (hc : t.Clear (ns.reverse ++ ℓ)) (hd : t.node ℓ ≠ none)
    (h : t.node (ns.reverse ++ ℓ) = none) : t.walk r n ℓ (ns.map .name ++ cs) = .error .noEnt ∨
      ∃ m, t.node m = none ∧ t.walk r n ℓ (ns.map .name ++ cs) = .ok (m, n) := by
  induction ns generalizing ℓ with
  | nil => exact absurd h hd
  | cons m ns ih =>
    rw [List.reverse_cons, List.append_assoc, List.singleton_append] at hc h
    obtain ⟨-, hf, hl⟩ := Clear.of_append hc
    by_cases hn : t.node (m :: ℓ) = none
    · have hm : t.move r ℓ (.name m) (ns.map .name ++ cs) = _ := move_name_none hn hf
      rw [hk, Bool.false_or] at hm
      by_cases he : (ns.map Comp.name ++ cs).all Comp.isEmpty = true
      · rw [if_pos he] at hm
        have hf' : t.isFile (m :: ℓ) = false := by simp only [isFile, hn]
        exact Or.inr ⟨m :: ℓ, hn, (walk_go hm).trans (walk_empties hf' he)⟩
      · rw [if_neg he] at hm
        exact Or.inl (walk_stop hm)
    · have hw : t.walk r n ℓ ((m :: ns).map .name ++ cs) = t.walk r n (m :: ℓ) (ns.map .name ++ cs) :=
        walk_go (move_name_clear hn hl)
      rw [hw]
      exact ih hc hn h

/-! ## Walks in two parts -/

/-- Where last links are followed and missing names kept, what is left behind a component
does not matter to it. -/
theorem move_congr (hf : r.follow = true) (hk : r.keep = true) (cs' : List (Comp ν)) :
    t.move r ℓ c cs = t.move r ℓ c cs' := by
  cases c with
  | empty | dot | up => rfl
  | name m => simp only [move, hf, hk, Bool.true_or, if_true]

theorem walk_append (hf : r.follow = true) (hk : r.keep = true) (ds : List (Comp ν)) :
    t.walk r n ℓ (cs ++ ds) = (t.walk r n ℓ cs).bind fun v => t.walk r v.2 v.1 ds := by
  induction n, ℓ, cs using walk_induct t r with
  | nil n ℓ => rw [walk_nil]; rfl
  | stop n ℓ c cs e hm =>
    rw [walk_stop hm, List.cons_append, walk_stop ((move_congr hf hk _).trans hm)]
    rfl
  | go n ℓ c cs ℓ' hm ih => rw [walk_go hm, List.cons_append, walk_go ((move_congr hf hk _).trans hm), ih]
  | loop ℓ c cs ℓ' target hm =>
    rw [walk_loop hm, List.cons_append, walk_loop ((move_congr hf hk _).trans hm)]
    rfl
  | expand n ℓ c cs ℓ' target hm ih =>
    rw [walk_expand hm, List.cons_append, walk_expand ((move_congr hf hk _).trans hm), ← ih, List.append_assoc]

theorem walk_here {v : List ν × Nat} (h : ∀ c ∈ cs, c = .empty ∨ c = .dot) {ds : List (Comp ν)}
    (hw : t.walk r n ℓ (cs ++ ds) = .ok v) : t.walk r n ℓ ds = .ok v := by
  induction cs with
  | nil => exact hw
  | cons c cs ih =>
    have hm : t.move r ℓ c (cs ++ ds) = if t.isFile ℓ then .stop .notDir else .go ℓ := by
      rcases h c (by simp) with rfl | rfl <;> rfl
    refine ih (fun d hd => h d (List.mem_cons_of_mem c hd)) ?_
    rw [List.cons_append] at hw
    split at hm
    · rw [walk_stop hm] at hw
      cases hw
    · rwa [walk_go hm] at hw

theorem walk_drop_here (hf : r.follow = true) (hk : r.keep = true) {v : List ν × Nat} {ds : List (Comp ν)}
    (h : ∀ c ∈ ds, c = .empty ∨ c = .dot) (hw : t.walk r n ℓ (cs ++ ds) = .ok v) : t.walk r n ℓ cs = .ok v := by
  rw [walk_append hf hk] at hw
  cases hc : t.walk r n ℓ cs with
  | error e =>
    rw [hc] at hw
    cases hw
  | ok u =>
    rw [hc] at hw
    have hu : t.walk r u.2 u.1 ([] : List (Comp ν)) = .ok v := walk_here h (by rw [List.append_nil]; exact hw)
    rwa [walk_nil] at hu

theorem exists_of_walk (hk : r.keep = false) {v : List ν × Nat} (hm : t.node v.1 ≠ none) {x : ν}
    (h : t.walk r n ℓ (.name x :: cs) = .ok v) : t.node (x :: ℓ) ≠ none := by
  intro hn
  cases hf : t.isFile ℓ with
  | true =>
    rw [walk_stop (e := .notDir) (by simp only [move, hn, hf, if_true])] at h
    cases h
  | false =>
    have hmv : t.move r ℓ (.name x) cs = _ := move_name_none hn hf
    by_cases he : cs.all Comp.isEmpty = true
    · rw [hk, he, Bool.false_or, if_pos rfl] at hmv
      rw [walk_go hmv, walk_empties (by simp only [isFile, hn]) he, Except.ok.injEq] at h
      exact hm (h ▸ hn)
    · rw [hk, Bool.false_or, if_neg he] at hmv
      rw [walk_stop hmv] at h
      cases h

theorem move_then {r' : Rules ν} (hf : r.follow = true) (hk : r.keep = false) (htop : r'.top = r.top)
    (hstop : r'.stop = r.stop) {v : List ν × Nat} (hv : t.node v.1 ≠ none) {ds : List (Comp ν)} (hds : ds ≠ [])
    (h : t.walk r n ℓ (c :: cs) = .ok v) : t.move r' ℓ c (cs ++ ds) = t.move r ℓ c cs := by
  cases c with
  | empty | dot => rfl
  | up => simp only [move, Rules.parent, hstop]
  | name x =>
    have he : (cs ++ ds).isEmpty = false := by simp [hds]
    cases hn : t.node (x :: ℓ) with
    | none => exact absurd hn (exists_of_walk hk hv h)
    | some y => cases y <;> simp only [move, hn, hf, he, htop, Bool.true_or, Bool.not_false, Bool.or_true, if_true]

/-- A walk that has found something goes on from there, whatever is done with a last link then. -/
theorem walk_then {r' : Rules ν} (hf : r.follow = true) (hk : r.keep = false) (htop : r'.top = r.top)
    (hstop : r'.stop = r.stop) {m : List ν} {k : Nat} (hm : t.node m ≠ none) {ds : List (Comp ν)} (hds : ds ≠ []) :
    t.walk r n ℓ cs = .ok (m, k) → t.walk r' n ℓ (cs ++ ds) = t.walk r' k m ds := by
  have hmv : ∀ {n ℓ c cs}, t.walk r n ℓ (c :: cs) = .ok (m, k) → t.move r' ℓ c (cs ++ ds) = t.move r ℓ c cs :=
    fun hw => move_then hf hk htop hstop hm hds hw
  intro h
  induction n, ℓ, cs using walk_induct t r with
  | nil n ℓ =>
    rw [walk_nil, Except.ok.injEq, Prod.mk.injEq] at h
    rw [h.1, h.2, List.nil_append]
  | stop n ℓ c cs e hs =>
    rw [walk_stop hs] at h
    cases h
  | go n ℓ c cs ℓ' hs ih =>
    rw [List.cons_append, walk_go ((hmv h).trans hs)]
    exact ih (by rwa [walk_go hs] at h)
  | loop ℓ c cs ℓ' target hs =>
    rw [walk_loop hs] at h
    cases h
  | expand n ℓ c cs ℓ' target hs ih =>
    rw [List.cons_append, walk_expand ((hmv h).trans hs), ← List.append_assoc]
    exact ih (by rwa [walk_expand hs] at h)

/-! ## Walks below a directory -/

theorem move_go (h : t.move r ℓ c cs = .go ℓ') :
    ((c = .empty ∨ c = .dot) ∧ ℓ' = ℓ) ∨ (c = .up ∧ ℓ' = r.parent ℓ) ∨ ∃ x, c = .name x ∧ ℓ' = x :: ℓ := by
  cases c with
  | empty | dot =>
    simp only [move] at h
    split at h
    · cases h
    · exact Or.inl ⟨by simp, (Move.go.inj h).symm⟩
  | up =>
    simp only [move] at h
    split at h
    · cases h
    · exact Or.inr (Or.inl ⟨rfl, (Move.go.inj h).symm⟩)
  | name x =>
    refine Or.inr (Or.inr ⟨x, rfl, ?_⟩)
    simp only [move] at h
    split at h
    · split at h
      · cases h
      · exact (Move.go.inj h).symm
    · exact (Move.go.inj h).symm
    · split at h
      · cases h
      · split at h
        · exact (Move.go.inj h).symm
        · cases h

theorem move_expand (h : t.move r ℓ c cs = .expand ℓ' target) : ∃ x absolute, c = .name x ∧
    t.node (x :: ℓ) = some (.link absolute target) ∧ (r.follow || !cs.isEmpty) = true ∧
    ℓ' = if absolute then r.top else ℓ := by
  cases c with
  | empty | dot | up =>
    simp only [move] at h
    split at h <;> cases h
  | name x =>
    simp only [move] at h
    split at h
    · split at h
      · obtain ⟨rfl, rfl⟩ := Move.expand.inj h
        exact ⟨x, _, rfl, ‹_›, ‹_›, rfl⟩
      · cases h
    · cases h
    · split at h
      · cases h
      · split at h <;> cases h

/-- Where `..` stays is where absolute targets start: no walk leaves that directory. -/
theorem walk_beneath (hr : r.stop = r.top) {m : List ν} {k : Nat} (hℓ : r.top <:+ ℓ)
    (h : t.walk r n ℓ cs = .ok (m, k)) : r.top <:+ m := by
  induction n, ℓ, cs using walk_induct t r with
  | nil n ℓ =>
    rw [walk_nil, Except.ok.injEq, Prod.mk.injEq] at h
    rwa [← h.1]
  | stop n ℓ c cs e hs =>
    rw [walk_stop hs] at h
    cases h
  | go n ℓ c cs ℓ' hs ih =>
    refine ih ?_ (by rwa [walk_go hs] at h)
    obtain ⟨-, rfl⟩ | ⟨-, rfl⟩ | ⟨x, -, rfl⟩ := move_go hs
    · exact hℓ
    · unfold Rules.parent
      split
      · exact hℓ
      · obtain ⟨pre, rfl⟩ := hℓ
        cases pre with
        | nil => exact absurd hr.symm ‹_›
        | cons y pre => exact List.suffix_append pre r.top
    · exact hℓ.trans (List.suffix_cons x ℓ)
  | loop ℓ c cs ℓ' target hs =>
    rw [walk_loop hs] at h
    cases h
  | expand n ℓ c cs ℓ' target hs ih =>
    refine ih ?_ (by rwa [walk_expand hs] at h)
    obtain ⟨x, absolute, -, -, -, rfl⟩ := move_expand hs
    split
    · exact List.suffix_rfl
    · exact hℓ

end DirTree

/-- No `..` is ahead where `..` would stay. -/
def Rules.Unclamped (r : Rules ν) (ℓ : List ν) (cs : List (Comp ν)) : Prop := cs.head? = some .up → ℓ ≠ r.stop

instance (r : Rules ν) (ℓ : List ν) (cs : List (Comp ν)) : Decidable (r.Unclamped ℓ cs) := by
  unfold Rules.Unclamped; infer_instance

namespace DirTree

/-- A link with an absolute target. -/
def isJump (t : DirTree ν) (ℓ : List ν) : Bool :=
  match t.node ℓ with
  | some (.link true _) => true
  | _ => false

def NoJump (t : DirTree ν) (r : Rules ν) (ℓ : List ν) : List (Comp ν) → Prop
  | .name x :: cs => (r.follow || !cs.isEmpty) = true → t.isJump (x :: ℓ) = false
  | _ => True

instance (t : DirTree ν) (r : Rules ν) (ℓ : List ν) (cs : List (Comp ν)) : Decidable (t.NoJump r ℓ cs) := by
  unfold NoJump; split <;> infer_instance

instance (t : DirTree ν) (r : Rules ν) (Q : List ν → List (Comp ν) → Prop) [∀ ℓ cs, Decidable (Q ℓ cs)] (n : Nat) (ℓ : List ν)
    (cs : List (Comp ν)) : Decidable (t.Along r Q n ℓ cs) :=
  inferInstanceAs (Decidable (∀ s ∈ t.trace r n ℓ cs, Q s.1 s.2))

variable {t : DirTree ν} {r r' : Rules ν} {n : Nat} {ℓ ℓ' : List ν} {c : Comp ν} {cs : List (Comp ν)}

theorem move_unrooted (hf : r'.follow = r.follow) (hk : r'.keep = r.keep) (hs : r'.stop = [])
    (hu : r.Unclamped ℓ (c :: cs)) (hj : t.NoJump r ℓ (c :: cs)) : t.move r' ℓ c cs = t.move r ℓ c cs := by
  cases c with
  | empty | dot => rfl
  | up =>
    have hp : r'.parent ℓ = r.parent ℓ := by
      rw [Rules.parent, Rules.parent, hs, if_neg (hu rfl)]
      cases ℓ <;> rfl
    simp only [move, hp]
  | name x =>
    cases hn : t.node (x :: ℓ) with
    | none => simp only [move, hn, hk]
    | some y =>
      cases y with
      | dir | file => simp only [move, hn]
      | link absolute target =>
        by_cases he : (r.follow || !cs.isEmpty) = true
        · cases absolute with
          | true =>
            have := hj he
            simp [isJump, hn] at this
          | false => simp only [move, hn, hf, Bool.false_eq_true, if_false]
        · simp only [move, hn, hf, he, if_false, Bool.false_eq_true]

/-- Nothing shows that the root directory of the walk is not the topmost one, as long as `..`
is not met there and no absolute link is expanded. -/
theorem walk_unrooted (hf : r'.follow = r.follow) (hk : r'.keep = r.keep) (hs : r'.stop = [])
    (hu : t.Along r r.Unclamped n ℓ cs) (hj : t.Along r (t.NoJump r) n ℓ cs) :
    t.walk r' n ℓ cs = t.walk r n ℓ cs := by
  have hmv : ∀ {n ℓ c cs}, t.Along r r.Unclamped n ℓ (c :: cs) → t.Along r (t.NoJump r) n ℓ (c :: cs) →
      t.move r' ℓ c cs = t.move r ℓ c cs := fun hu hj => move_unrooted hf hk hs hu.head hj.head
  induction n, ℓ, cs using walk_induct t r with
  | nil n ℓ => rw [walk_nil, walk_nil]
  | stop n ℓ c cs e hm => rw [walk_stop hm, walk_stop ((hmv hu hj).trans hm)]
  | go n ℓ c cs ℓ' hm ih => rw [walk_go hm, walk_go ((hmv hu hj).trans hm), ih (hu.go hm) (hj.go hm)]
  | loop ℓ c cs ℓ' target hm => rw [walk_loop hm, walk_loop ((hmv hu hj).trans hm)]
  | expand n ℓ c cs ℓ' target hm ih =>
    rw [walk_expand hm, walk_expand ((hmv hu hj).trans hm), ih (hu.expand hm) (hj.expand hm)]

theorem along_names {Q : List ν → List (Comp ν) → Prop} (hnil : ∀ ℓ, Q ℓ [])
    (hname : ∀ ℓ x cs, t.isLink (x :: ℓ) = false → Q ℓ (.name x :: cs)) {ns : List ν} (hc : t.Clear (ns.reverse ++ ℓ)) :
    t.Along r Q n ℓ (ns.map .name) := by
  induction ns generalizing ℓ with
  | nil => exact along_nil.mpr (hnil ℓ)
  | cons m ns ih =>
    rw [List.reverse_cons, List.append_assoc, List.singleton_append] at hc
    obtain ⟨-, -, hl⟩ := Clear.of_append hc
    rw [List.map_cons]
    cases hm : t.move r ℓ (.name m) (ns.map .name) with
    | stop e => exact (along_stop hm).mpr (hname ℓ m _ hl)
    | go ℓ' =>
      obtain ⟨hc', -⟩ | ⟨hc', -⟩ | ⟨x, hx, rfl⟩ := move_go hm
      · rcases hc' with hc' | hc' <;> cases hc'
      · cases hc'
      · cases hx
        exact (along_go hm).mpr ⟨hname ℓ m _ hl, ih hc⟩
    | expand ℓ' target =>
      obtain ⟨x, absolute, hx, hn, -, -⟩ := move_expand hm
      cases hx
      simp [isLink, hn] at hl

/-! ## Walks in two parts, with what is met on the way -/

def Ahead (P : List ν → Comp ν → Prop) (ℓ : List ν) : List (Comp ν) → Prop
  | [] => True
  | c :: _ => P ℓ c

instance (P : List ν → Comp ν → Prop) [∀ ℓ c, Decidable (P ℓ c)] (ℓ : List ν) (cs : List (Comp ν)) :
    Decidable (Ahead P ℓ cs) := by
  cases cs <;> unfold Ahead <;> infer_instance

/-- From a place there is, a walk that finds something finds something in each of its parts. -/
theorem walk_split (hf : r.follow = true) (hk : r.keep = false) (htop : t.node r.top ≠ none) {v : List ν × Nat}
    (hv : t.node v.1 ≠ none) (hℓ : t.node ℓ ≠ none) {ds : List (Comp ν)} (h : t.walk r n ℓ (cs ++ ds) = .ok v) :
    ∃ u, t.node u.1 ≠ none ∧ t.walk r n ℓ cs = .ok u ∧ t.walk r u.2 u.1 ds = .ok v := by
  have hmv : ∀ {n ℓ c cs}, t.walk r n ℓ (c :: (cs ++ ds)) = .ok v → t.move r ℓ c (cs ++ ds) = t.move r ℓ c cs := by
    intro n ℓ c cs hw
    cases c with
    | empty | dot | up => rfl
    | name x =>
      cases hn : t.node (x :: ℓ) with
      | none => exact absurd hn (exists_of_walk hk hv hw)
      | some y => cases y <;> simp only [move, hn, hf, Bool.true_or, if_true]
  induction n, ℓ, cs using walk_induct t r with
  | nil n ℓ => exact ⟨(ℓ, n), hℓ, walk_nil n ℓ, h⟩
  | stop n ℓ c cs e hs =>
    rw [List.cons_append, walk_stop ((hmv h).trans hs)] at h
    cases h
  | go n ℓ c cs ℓ' hs ih =>
    have h' := h
    rw [List.cons_append, walk_go ((hmv h).trans hs)] at h'
    obtain ⟨u, hu, h1, h2⟩ := ih (by
      obtain ⟨-, rfl⟩ | ⟨-, rfl⟩ | ⟨x, rfl, rfl⟩ := move_go hs
      · exact hℓ
      · unfold Rules.parent
        split
        · exact hℓ
        · cases ℓ with
          | nil => exact hℓ
          | cons y ℓ =>
            have hd : t.node ℓ = some .dir := t.parent_dir hℓ
            rw [List.tail_cons, hd]
            nofun
      · exact exists_of_walk hk hv h) h'
    exact ⟨u, hu, by rw [walk_go hs, h1], h2⟩
  | loop ℓ c cs ℓ' target hs =>
    rw [List.cons_append, walk_loop ((hmv h).trans hs)] at h
    cases h
  | expand n ℓ c cs ℓ' target hs ih =>
    have h' := h
    rw [List.cons_append, walk_expand ((hmv h).trans hs), ← List.append_assoc] at h'
    obtain ⟨u, hu, h1, h2⟩ := ih (by
      obtain ⟨x, absolute, -, -, -, rfl⟩ := move_expand hs
      split
      · exact htop
      · exact hℓ) h'
    exact ⟨u, hu, by rw [walk_expand hs, h1], h2⟩

theorem along_append {P : List ν → Comp ν → Prop} (hf : r.follow = true) (hk : r.keep = false) {u : List ν × Nat}
    (hu : t.node u.1 ≠ none) (h : t.walk r n ℓ cs = .ok u) (ds : List (Comp ν)) :
    t.Along r (Ahead P) n ℓ (cs ++ ds) ↔ t.Along r (Ahead P) n ℓ cs ∧ t.Along r (Ahead P) u.2 u.1 ds := by
  have hmv : ∀ {n ℓ c cs}, t.walk r n ℓ (c :: cs) = .ok u → t.move r ℓ c (cs ++ ds) = t.move r ℓ c cs := by
    intro n ℓ c cs hw
    by_cases hds : ds = []
    · rw [hds, List.append_nil]
    · exact move_then hf hk rfl rfl hu hds hw
  induction n, ℓ, cs using walk_induct t r with
  | nil n ℓ =>
    rw [walk_nil, Except.ok.injEq] at h
    subst h
    rw [List.nil_append, along_nil]
    exact ⟨fun h => ⟨trivial, h⟩, fun h => h.2⟩
  | stop n ℓ c cs e hs =>
    rw [walk_stop hs] at h
    cases h
  | go n ℓ c cs ℓ' hs ih =>
    have h' := h
    rw [walk_go hs] at h'
    rw [List.cons_append, along_go ((hmv h).trans hs), along_go hs, and_assoc]
    exact and_congr_right fun _ => ih h'
  | loop ℓ c cs ℓ' target hs =>
    rw [walk_loop hs] at h
    cases h
  | expand n ℓ c cs ℓ' target hs ih =>
    have h' := h
    rw [walk_expand hs] at h'
    rw [List.cons_append, along_expand ((hmv h).trans hs), along_expand hs, ← List.append_assoc, and_assoc]
    exact and_congr_right fun _ => ih h'

end DirTree

end

end FileTree
