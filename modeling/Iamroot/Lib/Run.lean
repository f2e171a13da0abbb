import Mathlib.Data.List.Basic

/-!
# Runs of a deterministic machine

A machine is a step function of a state and an input. `exec` is the state after
a list of inputs; `Meets C` says that every step of the run satisfied the
condition `C` on the state before it and its input. `Meets.inv` is the rule for
invariants: what a step that meets the condition keeps, every run that meets
it keeps.
-/

namespace Run

variable {σ α : Type*} (step : σ → α → σ)

def exec : σ → List α → σ
  | s, [] => s
  | s, a :: l => exec (step s a) l

def Meets (C : σ → α → Prop) : σ → List α → Prop
  | _, [] => True
  | s, a :: l => C s a ∧ Meets C (step s a) l

variable {step}

theorem exec_append (l' : List α) : ∀ (l : List α) (s : σ), exec step s (l ++ l') = exec step (exec step s l) l'
  | [], _ => rfl
  | a :: l, s => exec_append l' l (step s a)

theorem Meets.inv {C : σ → α → Prop} {I : σ → Prop} (hstep : ∀ s a, I s → C s a → I (step s a)) :
    ∀ (l : List α) (s : σ), I s → Meets step C s l → I (exec step s l)
  | [], _, hs, _ => hs
  | a :: l, s, hs, h => Meets.inv hstep l (step s a) (hstep s a hs h.1) h.2

/-- Where a step that breaks the condition spoils the property at once, the runs
that meet the condition are those along which the property holds throughout. -/
theorem Meets.iff {C : σ → α → Prop} {I J : σ → Prop} (hstep : ∀ s a, I s → C s a → I (step s a))
    (hJ : ∀ s, I s → J s) (hback : ∀ s a, I s → J (step s a) → C s a) :
    ∀ (l : List α) (s : σ), I s → (Meets step C s l ↔ ∀ l₁, l₁ <+: l → J (exec step s l₁))
  | [], s, hs => by
    refine ⟨fun _ l₁ h => ?_, fun _ => trivial⟩
    rw [List.prefix_nil.mp h]
    exact hJ s hs
  | a :: l, s, hs => by
    constructor
    · rintro ⟨ha, hl⟩ l₁ h
      cases l₁ with
      | nil => exact hJ s hs
      | cons b l₁ =>
        obtain ⟨rfl, h'⟩ := List.cons_prefix_cons.mp h
        exact (Meets.iff hstep hJ hback l _ (hstep s b hs ha)).mp hl l₁ h'
    · intro h
      have ha : C s a := hback s a hs (h [a] (by simp))
      refine ⟨ha, (Meets.iff hstep hJ hback l _ (hstep s a hs ha)).mpr fun l₁ h' => ?_⟩
      exact h (a :: l₁) (List.cons_prefix_cons.mpr ⟨rfl, h'⟩)

theorem Meets.of_append {C : σ → α → Prop} : ∀ {l l' : List α} {s : σ}, Meets step C s (l ++ l') → Meets step C s l
  | [], _, _, _ => trivial
  | _ :: _, _, _, h => ⟨h.1, Meets.of_append h.2⟩

theorem Meets.last {C : σ → α → Prop} {a : α} : ∀ {l : List α} {s : σ}, Meets step C s (l ++ [a]) → C (exec step s l) a
  | [], _, h => h.1
  | a :: l, s, h => Meets.last (l := l) (s := step s a) h.2

end Run
