import Iamroot.ExecChain

/-!
# Chains of execs

Once a loader without `--argv0` has been given a program, the variable is in the
environment, and stays there for the whole chain. A program that is started in
another way with the library in it then sees the name of an earlier one.
-/

namespace Iamroot

/-! ## Chains -/

def Link.Clears (k : Link) : Prop := ∃ c ∈ k.calls, c.Clears "argv0".toList

/-- The image, and whether the variable may be set: an exec that came to a loader without `--argv0` has set it, and
nobody has taken it away. -/
def carry (c : Option Image × Prop) (k : Link) : Option Image × Prop :=
  (chainStep c.1 k, (∃ i, k.before c.1 = some i ∧ k.Sets i) ∨ c.2 ∧ ¬ k.Clears)

/-- The variable is unset where it cannot have been left, and the program sees what was asked for. -/
def Clean (c : Option Image × Prop) : Prop :=
  ∀ i, c.1 = some i → i.env.Ok ∧ i.argv0 = i.asked ∧ (¬ c.2 → i.env.value "argv0".toList = none)

structure InShell (e : Env) : Prop where
  ok : e.Ok
  root : e.value "IAMROOT_ROOT".toList = some "/r".toList
  inhibit : e.value "IAMROOT_INHIBIT_RPATH".toList = none

section
variable {b : Bool} {x : Str} {s s' : ExecState} {i : Image} {e e' : Env}

theorem InShell.kept {N : List Str} (h : InShell e) (hk : KeptBut N e e') (hN : N ⊆ execNames) : InShell e' := by
  obtain ⟨hok, hv⟩ := hk h.ok
  have hroot : "IAMROOT_ROOT".toList ∉ execNames := by decide
  have hinhibit : "IAMROOT_INHIBIT_RPATH".toList ∉ execNames := by decide
  exact ⟨hok, (hv _ fun hm => hroot (hN hm)).trans h.root, (hv _ fun hm => hinhibit (hN hm)).trans h.inhibit⟩

end

end Iamroot
