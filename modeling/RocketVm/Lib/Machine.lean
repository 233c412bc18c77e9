import RocketVm.Lib.Traced
import Mathlib.Logic.Function.Iterate

/-!
# Runs of a traced step function

A deterministic machine is a step function `step : σ → Traced ε σ`. This module has the rules
that carry a fact about one step to every run: invariants, invariants under a condition that
the steps of the run are assumed to meet, ghost state that rides along with the run without
changing it, and simulation of one machine by another.

The rules are stated once for ghost state (`run_history_invariant`); the plain invariant rule
and the simulation rule are its instances.
-/

namespace Lib

section Run

variable {σ ε γ : Type} (step : σ → Traced ε σ)

/-- The state after `k` steps. -/
def run (k : Nat) (s : σ) : σ := (fun s => (step s).val)^[k] s

@[simp] theorem run_zero (s : σ) : run step 0 s = s := rfl

/-- The last step of a run is a step from the state the run has reached. -/
theorem run_succ (k : Nat) (s : σ) : run step (k + 1) s = (step (run step k s)).val :=
  Function.iterate_succ_apply' _ k s

/-- The ghost state after `k` steps: `update` sees the state each step starts from. -/
def history (update : σ → γ → γ) (s : σ) (g : γ) : Nat → γ
  | 0 => g
  | k + 1 => update (run step k s) (history update s g k)

variable {step}

/-- **The run rule.** A relation between state and ghost that holds at the start, and that every
step allowed by `C` preserves, holds after every run whose steps are all allowed. -/
theorem run_history_invariant (update : σ → γ → γ) {I : σ → γ → Prop} {C : σ → Prop}
    {s : σ} {g : γ} (start : I s g)
    (keeps : ∀ s g, I s g → C s → I (step s).val (update s g)) (k : Nat)
    (allowed : ∀ j < k, C (run step j s)) :
    I (run step k s) (history step update s g k) := by
  induction k with
  | zero => exact start
  | succ k ih =>
    have before := ih fun j hj => allowed j (Nat.lt_succ_of_lt hj)
    rw [run_succ]
    exact keeps _ _ before (allowed k (Nat.lt_succ_self k))

/-- An invariant of every allowed step holds after every run of allowed steps. -/
theorem run_invariant_while {I C : σ → Prop} {s : σ} (start : I s)
    (keeps : ∀ s, I s → C s → I (step s).val) (k : Nat)
    (allowed : ∀ j < k, C (run step j s)) : I (run step k s) :=
  run_history_invariant (fun _ (u : Unit) => u) (I := fun s _ => I s) (g := ()) start
    (fun s _ hs hc => keeps s hs hc) k allowed

/-- An invariant of every step holds after every run. -/
theorem run_invariant {I : σ → Prop} {s : σ} (start : I s)
    (keeps : ∀ s, I s → I (step s).val) (k : Nat) : I (run step k s) :=
  run_invariant_while (C := fun _ => True) start (fun s hs _ => keeps s hs) k fun _ _ => trivial

/-- **Forward simulation.** When each allowed step of the machine is matched by a step of the
abstract machine `astep`, related states stay related along every run of allowed steps. -/
theorem run_simulates {τ : Type} {astep : τ → τ} {R : σ → τ → Prop} {C : σ → Prop}
    {s : σ} {t : τ} (start : R s t) (matches_ : ∀ s t, R s t → C s → R (step s).val (astep t))
    (k : Nat) (allowed : ∀ j < k, C (run step j s)) : R (run step k s) (astep^[k] t) := by
  have ghost : ∀ k, history step (fun _ t => astep t) s t k = astep^[k] t := by
    intro k
    induction k with
    | zero => rfl
    | succ k ih => rw [history, ih, Function.iterate_succ_apply']
  rw [← ghost k]
  exact run_history_invariant _ start matches_ k allowed

end Run

end Lib
