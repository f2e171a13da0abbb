import Mathlib.Logic.Relation
import Mathlib.Order.WellFounded
import Mathlib.Data.Fintype.Pigeonhole
import Mathlib.Data.List.Nodup

/-!
# Depth-first walks that record a node when they leave it

A walk goes through the entries of a node in their order, visits the nodes that
they lead to, and records a node once its own entries are done. What is recorded
is not walked again, but a node in progress is not recorded yet. Such a walk
ends if and only if the nodes that it tries have no cycle, where an entry is
tried when nothing before it makes the walk fail.
-/

namespace DepthFirst

inductive Item (N : Type*) where
  | lost
  | skipped
  | node (q : N)

/-- How a walk ends: with what is recorded, because a node could not be passed, or
for want of room for the record. -/
inductive Res (S : Type*) where
  | done (s : S)
  | fail
  | full

structure Walk (N S : Type*) where
  entries : N → List (Item N)
  /-- The entries of the node cannot be read. -/
  shut : N → Bool
  seen : S → N → Bool
  /-- A recorded node can be passed again. -/
  again : N → Bool
  leaves : N → Bool
  leave : N → S → Res S
  leave_done : ∀ {q s s'}, leave q s = .done s' → leaves q = true ∧ ∀ x, seen s' x = true ↔ x = q ∨ seen s x = true
  leave_fail : ∀ {q s}, leave q s = .fail → leaves q = false
  again_ok : ∀ {q}, shut q = false → leaves q = true → again q = true

abbrev Out (N S : Type*) := Option (Res S × List N)

section
variable {N S : Type*}

def along (visit : N → S → Out N S) : List (Item N) → S → Out N S
  | [], s => some (.done s, [])
  | .lost :: _, _ => some (.fail, [])
  | .skipped :: es, s => along visit es s
  | .node q :: es, s =>
    match visit q s with
    | none => none
    | some (.done s', xs) => (along visit es s').map fun r => (r.1, xs ++ r.2)
    | some (r, xs) => some (r, xs)

namespace Walk

def visit (w : Walk N S) : Nat → N → S → Out N S
  | 0, _, _ => none
  | n + 1, q, s =>
    if w.seen s q then some (if w.again q then .done s else .fail, [])
    else if w.shut q then some (.fail, [])
    else
      match along (w.visit n) (w.entries q) s with
      | none => none
      | some (.done s', xs) => some (w.leave q s', q :: xs)
      | some (r, xs) => some (r, q :: xs)

/-! ## What is tried -/

section
variable (w : Walk N S) (s₀ : S)

/-- Nothing about the node itself makes the walk fail. -/
def Good (q : N) : Prop :=
  if w.seen s₀ q then w.again q = true else w.shut q = false ∧ w.leaves q = true ∧ Item.lost ∉ w.entries q

def Edge (p q : N) : Prop := w.seen s₀ p = false ∧ Item.node q ∈ w.entries p

/-- No node that the walk can come to from this one makes it fail. -/
def Clean (q : N) : Prop := ∀ x, Relation.ReflTransGen (w.Edge s₀) q x → w.Good s₀ x

def Passed : Item N → Prop
  | .lost => False
  | .skipped => True
  | .node q => w.Clean s₀ q

def TriedFrom (l : List (Item N)) (q : N) : Prop :=
  ∃ l₁ l₂, l = l₁ ++ .node q :: l₂ ∧ ∀ e ∈ l₁, w.Passed s₀ e

def Tried (p q : N) : Prop := w.seen s₀ p = false ∧ w.shut p = false ∧ w.TriedFrom s₀ (w.entries p) q

abbrev Ends (q : N) : Prop := Acc (fun a b => w.Tried s₀ b a) q

/-- No node that is tried from this one, at any depth, is tried from itself. -/
def Acyclic (q : N) : Prop :=
  ∀ x, Relation.ReflTransGen (w.Tried s₀) q x → ¬ Relation.TransGen (w.Tried s₀) x x

def NoCycle (l : List (Item N)) : Prop := ∀ q, w.TriedFrom s₀ l q → w.Acyclic s₀ q

end

variable {w : Walk N S} {s₀ s : S} {p q x : N} {l l₁ l₂ : List (Item N)}

theorem TriedFrom.head : w.TriedFrom s₀ (.node q :: l) q := ⟨[], l, rfl, nofun⟩

theorem TriedFrom.cons {e : Item N} (he : w.Passed s₀ e) (h : w.TriedFrom s₀ l q) : w.TriedFrom s₀ (e :: l) q := by
  obtain ⟨l₁, l₂, rfl, h⟩ := h
  refine ⟨e :: l₁, l₂, rfl, ?_⟩
  intro e' he'
  rcases List.mem_cons.mp he' with rfl | he'
  · exact he
  · exact h e' he'

theorem triedFrom_cons {e : Item N} (h : w.TriedFrom s₀ (e :: l) q) :
    e = .node q ∨ w.Passed s₀ e ∧ w.TriedFrom s₀ l q := by
  obtain ⟨l₁, l₂, heq, h⟩ := h
  cases l₁ with
  | nil => exact .inl (List.cons.inj heq).1
  | cons e' l₁ =>
    obtain ⟨rfl, rfl⟩ := List.cons.inj heq
    exact .inr ⟨h e List.mem_cons_self, l₁, l₂, rfl, fun e he => h e (List.mem_cons_of_mem _ he)⟩

theorem clean_of_seen (h : w.seen s₀ q = true) (ha : w.again q = true) : w.Clean s₀ q := by
  intro x hx
  rcases Relation.ReflTransGen.cases_head hx with rfl | ⟨y, hy, -⟩
  · rw [Good, if_pos h]
    exact ha
  · rw [hy.1] at h
    cases h

/-- A node all of whose entries were passed is clean, when it can be left. -/
theorem clean_of_passed (hs : w.seen s₀ p = false) (hsh : w.shut p = false) (hl : w.leaves p = true)
    (h : ∀ e ∈ w.entries p, w.Passed s₀ e) : w.Clean s₀ p := by
  intro x hx
  rcases Relation.ReflTransGen.cases_head hx with rfl | ⟨y, hy, hx⟩
  · rw [Good, if_neg (by simp [hs])]
    exact ⟨hsh, hl, fun hm => h _ hm⟩
  · exact h _ hy.2 x hx

theorem passed_of_clean (hs : w.seen s₀ p = false) (hc : w.Clean s₀ p) : ∀ e ∈ w.entries p, w.Passed s₀ e := by
  intro e he
  cases e with
  | lost =>
    have hg := hc p .refl
    rw [Good, if_neg (by simp [hs])] at hg
    exact hg.2.2 he
  | skipped => trivial
  | node q => exact fun x hx => hc x (.head ⟨hs, he⟩ hx)

theorem Clean.good (hc : w.Clean s₀ p) (hs : w.seen s₀ p = false) : w.shut p = false ∧ w.leaves p = true := by
  have hg := hc p .refl
  rw [Good, if_neg (by simp [hs])] at hg
  exact ⟨hg.1, hg.2.1⟩

/-! ## Fuel -/

theorem along_mono {f g : N → S → Out N S} (h : ∀ q s r, f q s = some r → g q s = some r) :
    ∀ (l : List (Item N)) (s : S) (r : Res S × List N), along f l s = some r → along g l s = some r := by
  intro l
  induction l with
  | nil => exact fun _ _ hr => hr
  | cons e es ih =>
    intro s r hr
    cases e with
    | lost => exact hr
    | skipped => exact ih s r hr
    | node q =>
      simp only [along] at hr ⊢
      cases hf : f q s with
      | none => simp [hf] at hr
      | some o =>
        rw [h q s o hf]
        rw [hf] at hr
        obtain ⟨res, xs⟩ := o
        cases res with
        | done s' =>
          simp only [Option.map_eq_some_iff] at hr ⊢
          obtain ⟨t, ht, hr⟩ := hr
          exact ⟨t, ih s' t ht, hr⟩
        | fail | full => exact hr

theorem visit_succ : ∀ (n : Nat) (q : N) (s : S) (r : Res S × List N), w.visit n q s = some r → w.visit (n + 1) q s = some r := by
  intro n
  induction n with
  | zero => intro q s r h; cases h
  | succ n ih =>
    intro q s r h
    rw [visit] at h ⊢
    split at h
    next hq => rw [if_pos hq]; exact h
    next hq =>
      rw [if_neg hq]
      split at h
      next hsh => rw [if_pos hsh]; exact h
      next hsh =>
        rw [if_neg hsh]
        cases hl : along (w.visit n) (w.entries q) s with
        | none => simp [hl] at h
        | some o =>
          rw [hl] at h
          rw [along_mono ih _ _ _ hl]
          exact h

theorem visit_mono {n m : Nat} (h : n ≤ m) {r : Res S × List N} (hr : w.visit n q s = some r) : w.visit m q s = some r := by
  induction h with
  | refl => exact hr
  | step _ ih => exact visit_succ _ _ _ _ ih

theorem along_visit_mono {n m : Nat} (h : n ≤ m) {r : Res S × List N} (hr : along (w.visit n) l s = some r) :
    along (w.visit m) l s = some r :=
  along_mono (fun _ _ _ hv => visit_mono h hv) l s r hr

theorem acc_irrefl {r : N → N → Prop} (h : Acc r p) : ¬ r p p := by
  induction h with
  | intro p _ ih => exact fun hp => ih p hp hp

theorem Ends.tail (h : w.Ends s₀ p) (hx : Relation.ReflTransGen (w.Tried s₀) p x) : w.Ends s₀ x := by
  induction hx with
  | refl => exact h
  | tail _ hy ih => exact ih.inv hy

/-- Among finitely many nodes, a chain that does not end comes back to one of them. -/
theorem acyclic_iff [Finite N] : w.Acyclic s₀ q ↔ w.Ends s₀ q := by
  constructor
  · intro h
    by_contra hno
    obtain ⟨f, rfl, hf⟩ := not_acc_iff_exists_descending_chain.mp hno
    have hle : ∀ i, Relation.ReflTransGen (w.Tried s₀) (f 0) (f i) :=
      fun i => Nat.rel_of_forall_rel_succ_of_le _ (fun n => .single (hf n)) (Nat.zero_le i)
    have hlt : ∀ {i j}, i < j → Relation.TransGen (w.Tried s₀) (f i) (f j) :=
      fun hij => Nat.rel_of_forall_rel_succ_of_lt _ (fun n => .single (hf n)) hij
    obtain ⟨i, j, hij, heq⟩ := Finite.exists_ne_map_eq_of_infinite f
    rcases Nat.lt_or_gt_of_ne hij with hij | hij
    · have hc := hlt hij
      rw [← heq] at hc
      exact h _ (hle i) hc
    · have hc := hlt hij
      rw [heq] at hc
      exact h _ (hle j) hc
  · intro h x hx hcycle
    exact acc_irrefl (h.tail hx).transGen (Relation.transGen_swap.mpr hcycle)

/-! ## A walk without cycles ends -/

/-- What is recorded now was recorded at the start, or is a node that was passed. -/
structure Inv (w : Walk N S) (s₀ s : S) : Prop where
  old : ∀ x, w.seen s₀ x = true → w.seen s x = true
  new : ∀ x, w.seen s x = true → w.seen s₀ x = true ∨ w.Clean s₀ x ∧ w.Ends s₀ x

/-- What the walk of a node, or of entries, leaves: no node is walked twice, and
those that are walked satisfy `T`. -/
structure Left (w : Walk N S) (s₀ s : S) (T : N → Prop) (r : Res S × List N) : Prop where
  fresh : ∀ x ∈ r.2, w.seen s x = false ∧ T x
  nodup : r.2.Nodup
  passed : ∀ s', r.1 = .done s' → w.Inv s₀ s' ∧ (∀ x, w.seen s x = true → w.seen s' x = true) ∧ ∀ x ∈ r.2, w.seen s' x = true

theorem Left.none {T : N → Prop} {r : Res S} (h : ∀ s', r = .done s' → s' = s) (hi : w.Inv s₀ s) : w.Left s₀ s T (r, []) where
  fresh := nofun
  nodup := .nil
  passed := by
    intro s' hr
    rw [h s' hr]
    exact ⟨hi, fun _ h => h, nofun⟩

theorem along_ends (l : List (Item N)) (hq : ∀ q, w.TriedFrom s₀ l q → ∀ s, w.Inv s₀ s → ∃ n r, w.visit n q s = some r ∧
      w.Left s₀ s (Relation.ReflTransGen (w.Tried s₀) q) r ∧ ∀ s', r.1 = .done s' → w.Clean s₀ q) :
    ∀ s, w.Inv s₀ s → ∃ n r, along (w.visit n) l s = some r ∧
        w.Left s₀ s (fun x => ∃ q, w.TriedFrom s₀ l q ∧ Relation.ReflTransGen (w.Tried s₀) q x) r ∧
        ∀ s', r.1 = .done s' → ∀ e ∈ l, w.Passed s₀ e := by
  induction l with
  | nil =>
    intro s hi
    refine ⟨0, (.done s, []), rfl, Left.none ?_ hi, fun _ _ => nofun⟩
    intro s' h
    exact (Res.done.inj h).symm
  | cons e es ih =>
    intro s hi
    cases e with
    | lost => exact ⟨0, (.fail, []), rfl, Left.none nofun hi, nofun⟩
    | skipped =>
      have hs : w.Passed s₀ .skipped := trivial
      obtain ⟨n, r, hl, hleft, hall⟩ := ih (fun q h => hq q (h.cons hs)) s hi
      refine ⟨n, r, hl, ⟨?_, hleft.nodup, hleft.passed⟩, fun s' hr => List.forall_mem_cons.mpr ⟨hs, hall s' hr⟩⟩
      intro x hx
      obtain ⟨hns, q, hq, hqx⟩ := hleft.fresh x hx
      exact ⟨hns, q, hq.cons hs, hqx⟩
    | node q =>
      obtain ⟨n, ⟨res, xs⟩, hv, hleft, hclean⟩ := hq q TriedFrom.head s hi
      have hfresh : ∀ x ∈ xs, w.seen s x = false ∧
          ∃ q', w.TriedFrom s₀ (.node q :: es) q' ∧ Relation.ReflTransGen (w.Tried s₀) q' x :=
        fun x hx => ⟨(hleft.fresh x hx).1, q, TriedFrom.head, (hleft.fresh x hx).2⟩
      cases res with
      | fail => exact ⟨n, (.fail, xs), by simp only [along, hv], ⟨hfresh, hleft.nodup, nofun⟩, nofun⟩
      | full => exact ⟨n, (.full, xs), by simp only [along, hv], ⟨hfresh, hleft.nodup, nofun⟩, nofun⟩
      | done s' =>
        obtain ⟨hi', hkeep, hseen⟩ := hleft.passed s' rfl
        have hp : w.Passed s₀ (.node q) := hclean s' rfl
        obtain ⟨m, ⟨res, ys⟩, hl', hleft', hall⟩ := ih (fun q' h => hq q' (h.cons hp)) s' hi'
        refine ⟨max n m, (res, xs ++ ys), ?_, ⟨?_, ?_, ?_⟩, fun s'' hr => List.forall_mem_cons.mpr ⟨hp, hall s'' hr⟩⟩
        · simp only [along, visit_mono (Nat.le_max_left n m) hv, along_visit_mono (Nat.le_max_right n m) hl', Option.map_some]
        · intro x hx
          rcases List.mem_append.mp hx with hx | hx
          · exact hfresh x hx
          · obtain ⟨hns, q', hq', hqx⟩ := hleft'.fresh x hx
            refine ⟨Bool.eq_false_iff.mpr fun hs => ?_, q', hq'.cons hp, hqx⟩
            rw [hkeep x hs] at hns
            cases hns
        · -- what the first walk has walked is recorded when the second one starts
          refine List.nodup_append.mpr ⟨hleft.nodup, hleft'.nodup, ?_⟩
          intro x hx y hy hxy
          have hns := (hleft'.fresh y hy).1
          rw [← hxy, hseen x hx] at hns
          cases hns
        · intro s'' hr
          obtain ⟨hi'', hkeep', hseen'⟩ := hleft'.passed s'' hr
          refine ⟨hi'', fun x hx => hkeep' x (hkeep x hx), ?_⟩
          intro x hx
          rcases List.mem_append.mp hx with hx | hx
          · exact hkeep' x (hseen x hx)
          · exact hseen' x hx

theorem visit_ends (h : w.Ends s₀ p) : ∀ s, w.Inv s₀ s → ∃ n r, w.visit n p s = some r ∧
    w.Left s₀ s (Relation.ReflTransGen (w.Tried s₀) p) r ∧ ∀ s', r.1 = .done s' → w.Clean s₀ p := by
  induction h with
  | intro p hacc ih =>
    intro s hi
    by_cases hs : w.seen s p = true
    · refine ⟨1, _, if_pos hs, Left.none ?_ hi, ?_⟩
      · intro s' hr
        split at hr
        · exact (Res.done.inj hr).symm
        · cases hr
      · intro s' hr
        split at hr
        next ha => exact (hi.new p hs).elim (fun h0 => clean_of_seen h0 ha) (·.1)
        · cases hr
    by_cases hsh : w.shut p = true
    · refine ⟨1, (.fail, []), ?_, Left.none nofun hi, nofun⟩
      rw [visit, if_neg hs, if_pos hsh]
    rw [Bool.not_eq_true] at hs hsh
    have hs₀ : w.seen s₀ p = false := Bool.eq_false_iff.mpr fun h0 => by simp [hi.old p h0] at hs
    have htried : ∀ q, w.TriedFrom s₀ (w.entries p) q → w.Tried s₀ p q := fun q hq => ⟨hs₀, hsh, hq⟩
    obtain ⟨n, ⟨res, xs⟩, hl, hleft, hall⟩ := along_ends (w.entries p) (fun q hq => ih q (htried q hq)) s hi
    have hends : w.Ends s₀ p := ⟨p, hacc⟩
    -- the node itself is not among those walked below it
    have hp : p ∉ xs := by
      intro hm
      obtain ⟨q, hq, hqp⟩ := (hleft.fresh p hm).2
      have hcycle : Relation.TransGen (fun a b => w.Tried s₀ b a) p p :=
        Relation.transGen_swap.mpr (.head' (htried q hq) hqp)
      exact acc_irrefl hends.transGen hcycle
    have hfresh : ∀ x ∈ p :: xs, w.seen s x = false ∧ Relation.ReflTransGen (w.Tried s₀) p x := by
      intro x hx
      rcases List.mem_cons.mp hx with rfl | hx
      · exact ⟨hs, .refl⟩
      · obtain ⟨hns, q, hq, hqx⟩ := hleft.fresh x hx
        exact ⟨hns, .head (htried q hq) hqx⟩
    have hnodup : (p :: xs).Nodup := List.nodup_cons.mpr ⟨hp, hleft.nodup⟩
    have hsh' : ¬ w.shut p = true := by simp [hsh]
    have hs' : ¬ w.seen s p = true := by simp [hs]
    cases res with
    | fail => exact ⟨n + 1, (.fail, p :: xs), by rw [visit, if_neg hs', if_neg hsh', hl], ⟨hfresh, hnodup, nofun⟩, nofun⟩
    | full => exact ⟨n + 1, (.full, p :: xs), by rw [visit, if_neg hs', if_neg hsh', hl], ⟨hfresh, hnodup, nofun⟩, nofun⟩
    | done s' =>
      obtain ⟨hi', hkeep, hseen⟩ := hleft.passed s' rfl
      refine ⟨n + 1, (w.leave p s', p :: xs), by rw [visit, if_neg hs', if_neg hsh', hl], ⟨hfresh, hnodup, ?_⟩, ?_⟩
      · intro s'' hr
        obtain ⟨hleaves, hrec⟩ := w.leave_done hr
        have hclean := clean_of_passed hs₀ hsh hleaves (hall s' rfl)
        refine ⟨⟨fun x hx => (hrec x).mpr (.inr (hi'.old x hx)), ?_⟩, fun x hx => (hrec x).mpr (.inr (hkeep x hx)), ?_⟩
        · intro x hx
          rcases (hrec x).mp hx with rfl | hx
          · exact .inr ⟨hclean, hends⟩
          · exact hi'.new x hx
        · intro x hx
          rcases List.mem_cons.mp hx with rfl | hx
          · exact (hrec x).mpr (.inl rfl)
          · exact (hrec x).mpr (.inr (hseen x hx))
      · intro s'' hr
        exact clean_of_passed hs₀ hsh (w.leave_done hr).1 (hall s' rfl)

/-! ## A walk that ends has no cycles -/

structure Told (w : Walk N S) (s₀ : S) (P : Prop) (r : Res S × List N) : Prop where
  done : P → ∃ s', r.1 = .done s'
  back : ∀ s', r.1 = .done s' → w.Inv s₀ s' ∧ P

theorem along_back {n : Nat} (hq : ∀ q s r, w.visit n q s = some r → w.Inv s₀ s → r.1 ≠ .full →
      w.Ends s₀ q ∧ w.Told s₀ (w.Clean s₀ q) r) (l : List (Item N)) :
    ∀ s r, along (w.visit n) l s = some r → w.Inv s₀ s → r.1 ≠ .full →
      (∀ q, w.TriedFrom s₀ l q → w.Ends s₀ q) ∧ w.Told s₀ (∀ e ∈ l, w.Passed s₀ e) r := by
  induction l with
  | nil =>
    intro s r h hi hfull
    cases h
    refine ⟨?_, fun _ => ⟨s, rfl⟩, ?_⟩
    · intro q hq
      obtain ⟨l₁, l₂, heq, -⟩ := hq
      simp at heq
    · intro s' hs
      cases hs
      exact ⟨hi, nofun⟩
  | cons e es ih =>
    intro s r h hi hfull
    cases e with
    | lost =>
      cases h
      refine ⟨?_, fun hall => (hall _ List.mem_cons_self).elim, nofun⟩
      intro q hq
      rcases triedFrom_cons hq with heq | ⟨hp, -⟩
      · cases heq
      · exact hp.elim
    | skipped =>
      have hs : w.Passed s₀ .skipped := trivial
      obtain ⟨hends, htold⟩ := ih s r h hi hfull
      refine ⟨?_, fun hall => htold.done (List.forall_mem_cons.mp hall).2, ?_⟩
      · intro q hq
        rcases triedFrom_cons hq with heq | ⟨-, hq⟩
        · cases heq
        · exact hends q hq
      · intro s' hr
        exact (htold.back s' hr).imp_right fun hall => List.forall_mem_cons.mpr ⟨hs, hall⟩
    | node q =>
      cases hv : w.visit n q s with
      | none => simp [along, hv] at h
      | some o =>
        obtain ⟨res, xs⟩ := o
        simp only [along, hv] at h
        cases res with
        | full =>
          cases h
          exact absurd rfl hfull
        | fail =>
          cases h
          obtain ⟨hend, htold⟩ := hq q s _ hv hi nofun
          have hno : ¬ w.Clean s₀ q := by
            intro hc
            obtain ⟨s', hs'⟩ := htold.done hc
            cases hs'
          refine ⟨?_, fun hall => (hno (hall _ List.mem_cons_self)).elim, nofun⟩
          intro q' hq'
          rcases triedFrom_cons hq' with heq | ⟨hp, -⟩
          · cases heq
            exact hend
          · exact (hno hp).elim
        | done s' =>
          obtain ⟨hend, htold⟩ := hq q s _ hv hi nofun
          obtain ⟨hi', hclean⟩ := htold.back s' rfl
          obtain ⟨t, ht, rfl⟩ := Option.map_eq_some_iff.mp h
          obtain ⟨hends, htold'⟩ := ih s' t ht hi' hfull
          refine ⟨?_, fun hall => htold'.done (List.forall_mem_cons.mp hall).2, ?_⟩
          · intro q' hq'
            rcases triedFrom_cons hq' with heq | ⟨-, hq'⟩
            · cases heq
              exact hend
            · exact hends q' hq'
          · intro s'' hr
            exact (htold'.back s'' hr).imp_right fun hall => List.forall_mem_cons.mpr ⟨hclean, hall⟩

theorem ends_of_seen (h : w.seen s₀ p = true) : w.Ends s₀ p := ⟨p, fun q hq => by rw [hq.1] at h; cases h⟩

theorem ends_of_shut (h : w.shut p = true) : w.Ends s₀ p := ⟨p, fun q hq => by rw [hq.2.1] at h; cases h⟩

theorem visit_back : ∀ (n : Nat) (p : N) (s : S) (r : Res S × List N), w.visit n p s = some r → w.Inv s₀ s → r.1 ≠ .full →
    w.Ends s₀ p ∧ w.Told s₀ (w.Clean s₀ p) r := by
  intro n
  induction n with
  | zero => intro p s r h; cases h
  | succ n ih =>
    intro p s r h hi hfull
    rw [visit] at h
    split at h
    next hs =>
      cases h
      have hend : w.Ends s₀ p := (hi.new p hs).elim ends_of_seen (·.2)
      refine ⟨hend, ?_, ?_⟩
      · intro hc
        have ha : w.again p = true := by
          cases h0 : w.seen s₀ p with
          | true => simpa only [Good, if_pos h0] using hc p .refl
          | false => exact w.again_ok (hc.good h0).1 (hc.good h0).2
        exact ⟨s, if_pos ha⟩
      · intro s' hr
        dsimp only at hr
        split at hr
        next ha =>
          cases hr
          exact ⟨hi, (hi.new p hs).elim (fun h0 => clean_of_seen h0 ha) (·.1)⟩
        · cases hr
    next hs =>
      have hs₀ : w.seen s₀ p = false := Bool.eq_false_iff.mpr fun h0 => hs (hi.old p h0)
      split at h
      next hsh =>
        cases h
        refine ⟨ends_of_shut hsh, ?_, nofun⟩
        intro hc
        rw [(hc.good hs₀).1] at hsh
        cases hsh
      next hsh =>
        rw [Bool.not_eq_true] at hsh
        cases hl : along (w.visit n) (w.entries p) s with
        | none => simp [hl] at h
        | some o =>
          obtain ⟨res, xs⟩ := o
          have hback := along_back ih (w.entries p) s (res, xs) hl hi
          have hend : (∀ q, w.TriedFrom s₀ (w.entries p) q → w.Ends s₀ q) → w.Ends s₀ p :=
            fun hq => ⟨p, fun q ht => hq q ht.2.2⟩
          simp only [hl] at h
          cases res with
          | full =>
            cases h
            exact absurd rfl hfull
          | fail =>
            cases h
            obtain ⟨hends, htold⟩ := hback nofun
            refine ⟨hend hends, ?_, nofun⟩
            intro hc
            obtain ⟨s', hs'⟩ := htold.done (passed_of_clean hs₀ hc)
            cases hs'
          | done s' =>
            cases h
            obtain ⟨hends, htold⟩ := hback nofun
            obtain ⟨hi', hall⟩ := htold.back s' rfl
            have hend := hend hends
            refine ⟨hend, ?_, ?_⟩
            · intro hc
              cases hr : w.leave p s' with
              | done s'' => exact ⟨s'', rfl⟩
              | full => exact absurd hr hfull
              | fail =>
                have hno := w.leave_fail hr
                rw [(hc.good hs₀).2] at hno
                cases hno
            · intro s'' hr
              obtain ⟨hleaves, hrec⟩ := w.leave_done hr
              have hclean := clean_of_passed hs₀ hsh hleaves hall
              refine ⟨⟨fun x hx => (hrec x).mpr (.inr (hi'.old x hx)), ?_⟩, hclean⟩
              intro x hx
              rcases (hrec x).mp hx with rfl | hx
              · exact .inr ⟨hclean, hend⟩
              · exact hi'.new x hx

/-- A walk whose nodes can always be recorded never stops for want of room. -/
theorem along_ne_full {f : N → S → Out N S} (h : ∀ q s r, f q s = some r → r.1 ≠ .full) :
    ∀ (l : List (Item N)) (s : S) (r : Res S × List N), along f l s = some r → r.1 ≠ .full := by
  intro l
  induction l with
  | nil => intro s r hr; cases hr; nofun
  | cons e es ih =>
    intro s r hr
    cases e with
    | lost => cases hr; nofun
    | skipped => exact ih s r hr
    | node q =>
      cases hf : f q s with
      | none => simp [along, hf] at hr
      | some o =>
        have ho := h q s o hf
        obtain ⟨res, xs⟩ := o
        simp only [along, hf] at hr
        cases res with
        | done s' =>
          obtain ⟨t, ht, rfl⟩ := Option.map_eq_some_iff.mp hr
          exact ih s' t ht
        | fail | full => cases hr; exact ho

theorem visit_ne_full (h : ∀ q s, w.leave q s ≠ .full) :
    ∀ (n : Nat) (q : N) (s : S) (r : Res S × List N), w.visit n q s = some r → r.1 ≠ .full := by
  intro n
  induction n with
  | zero => intro q s r hr; cases hr
  | succ n ih =>
    intro q s r hr
    rw [visit] at hr
    split at hr
    · cases hr
      dsimp only
      split <;> nofun
    · split at hr
      · cases hr
        nofun
      · cases hl : along (w.visit n) (w.entries q) s with
        | none => simp [hl] at hr
        | some o =>
          have ho := along_ne_full ih _ _ _ hl
          obtain ⟨res, xs⟩ := o
          simp only [hl] at hr
          cases res with
          | done s' => cases hr; exact h q s'
          | fail | full => cases hr; exact ho

/-! ## The two directions together -/

theorem Inv.start (w : Walk N S) (s₀ : S) : w.Inv s₀ s₀ := ⟨fun _ h => h, fun _ h => .inl h⟩

/-- Without a cycle the walk of the entries ends, and walks no node twice. -/
theorem along_of_noCycle [Finite N] (h : w.NoCycle s₀ l) :
    ∃ n r, along (w.visit n) l s₀ = some r ∧ r.2.Nodup := by
  obtain ⟨n, r, hl, hleft, -⟩ := along_ends l (fun q hq => visit_ends (acyclic_iff.mp (h q hq))) s₀ (Inv.start w s₀)
  exact ⟨n, r, hl, hleft.nodup⟩

/-- A walk of the entries that ends, and not for want of room, has tried no cycle. -/
theorem noCycle_of_along [Finite N] {n : Nat} {r : Res S × List N} (h : along (w.visit n) l s₀ = some r) (hr : r.1 ≠ .full) :
    w.NoCycle s₀ l :=
  fun q hq => acyclic_iff.mpr ((along_back (visit_back n) l s₀ r h (Inv.start w s₀) hr).1 q hq)

end Walk

end

end DepthFirst
