import Mathlib.Data.List.Basic

/-!
# What a computation reports to a callback

A computation that passes one event after the other to a callback, which can
stop it, is described by what it reports when nothing stops it: the events, and
the error that comes behind the last one, if any.
-/

namespace Callback

inductive Ended (ε : Type*) where
  | done
  | stopped (r : Int)
  | failed (e : ε)

variable {α ε σ : Type*}

def andThen (p : σ × Ended ε) (g : σ → σ × Ended ε) : σ × Ended ε :=
  match p.2 with
  | .done => g p.1
  | .stopped r => (p.1, .stopped r)
  | .failed e => (p.1, .failed e)

theorem andThen_assoc (p : σ × Ended ε) (g h : σ → σ × Ended ε) :
    andThen (andThen p g) h = andThen p fun s => andThen (g s) h := by
  obtain ⟨s, e⟩ := p
  cases e <;> rfl

theorem andThen_done (p : σ × Ended ε) : andThen p (fun s => (s, .done)) = p := by
  obtain ⟨s, e⟩ := p
  cases e <;> rfl

/-- A call of the callback: everything but 0 stops the computation. -/
def call (f : σ → α → σ × Int) (a : α) (s : σ) : σ × Ended ε :=
  ((f s a).1, if (f s a).2 = 0 then .done else .stopped (f s a).2)

structure Report (α ε : Type*) where
  events : List α
  fail : Option ε

namespace Report

def empty : Report α ε := ⟨[], none⟩

def error (e : ε) : Report α ε := ⟨[], some e⟩

def event (a : α) : Report α ε := ⟨[a], none⟩

def seq (t u : Report α ε) : Report α ε :=
  match t.fail with
  | none => ⟨t.events ++ u.events, u.fail⟩
  | some e => ⟨t.events, some e⟩

def run (f : σ → α → σ × Int) (t : Report α ε) (s : σ) : σ × Ended ε :=
  t.events.foldr (fun a g s => andThen (call f a s) g) (fun s => (s, t.fail.elim .done .failed)) s

variable {t u : Report α ε} {f : σ → α → σ × Int} {s : σ} {a : α}

@[simp] theorem run_event : (event a : Report α ε).run f s = call f a s := andThen_done _

@[simp] theorem run_seq : (t.seq u).run f s = andThen (t.run f s) (u.run f) := by
  obtain ⟨as, fail⟩ := t
  induction as generalizing s with
  | nil => cases fail <;> rfl
  | cons a as ih =>
    have hcons : ∀ (fail : Option ε) (as : List α), (Report.mk (a :: as) fail).run f s =
        andThen (call f a s) ((Report.mk as fail).run f) := fun _ _ => rfl
    have hseq : (seq ⟨a :: as, fail⟩ u).run f s = andThen (call f a s) ((seq ⟨as, fail⟩ u).run f) := by
      cases fail <;> rfl
    rw [hseq, hcons, andThen_assoc]
    exact congrArg _ (funext fun s => ih)

theorem seq_fail : (t.seq u).fail = none ↔ t.fail = none ∧ u.fail = none := by
  obtain ⟨as, fail⟩ := t
  cases fail <;> simp [seq]

theorem seq_events (h : t.fail = none) : (t.seq u).events = t.events ++ u.events := by
  obtain ⟨as, fail⟩ := t
  cases h
  rfl

end Report

end Callback
