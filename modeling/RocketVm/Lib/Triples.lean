import Mathlib.Logic.Function.Iterate
import Mathlib.Order.WellFounded

/-!
# Total correctness of a step function

`Triple step C P Q` says that a deterministic machine gets from every state with `P` to one with
`Q`, in steps from states with `C`. This module has the rules for it: one step, sequence, and the
loop over a well-founded measure, which is also all there is (`gets_iff_ranked`).
-/

namespace Lib

section Triples

variable {σ : Type} (step : σ → σ) (C : σ → Prop)

/-- The machine gets from a state to one with `Q`, in steps from states with `C`. -/
def Gets (Q : σ → Prop) (s : σ) : Prop :=
  ∃ k, Q (step^[k] s) ∧ ∀ j < k, C (step^[j] s)

/-- It gets from every state with `P` to one with `Q`. -/
def Triple (P Q : σ → Prop) : Prop :=
  ∀ s, P s → Gets step C Q s

variable {step C} {P Q R : σ → Prop}

namespace Gets

theorem here {s : σ} (arrived : Q s) : Gets step C Q s :=
  ⟨0, arrived, fun _ h => absurd h (Nat.not_lt_zero _)⟩

theorem step_first {s : σ} (allowed : C s) (rest : Gets step C Q (step s)) : Gets step C Q s := by
  obtain ⟨k, arrived, via⟩ := rest
  refine ⟨k + 1, arrived, fun j before => ?_⟩
  cases j with
  | zero => exact allowed
  | succ j => exact via j (Nat.lt_of_succ_lt_succ before)

theorem seq {s : σ} (first : Gets step C R s) (rest : Triple step C R Q) : Gets step C Q s := by
  obtain ⟨k, arrived, via⟩ := first
  induction k generalizing s with
  | zero => exact rest s arrived
  | succ k ih =>
    exact step_first (via 0 (Nat.succ_pos k))
      (ih arrived fun j before => via (j + 1) (Nat.succ_lt_succ before))

end Gets

namespace Triple

theorem skip (weaker : ∀ s, P s → Q s) : Triple step C P Q :=
  fun s before => .here (weaker s before)

/-- One step. -/
theorem of_step (next : ∀ s, P s → C s ∧ Q (step s)) : Triple step C P Q :=
  fun s before => .step_first (next s before).1 (.here (next s before).2)

theorem seq (first : Triple step C P R) (rest : Triple step C R Q) : Triple step C P Q :=
  fun s before => (first s before).seq rest

theorem pre {P' : σ → Prop} (triple : Triple step C P Q) (stronger : ∀ s, P' s → P s) :
    Triple step C P' Q :=
  fun s before => triple s (stronger s before)

/-- **The loop rule.** A body that exits, or comes back with a smaller measure, exits. -/
theorem loop {α : Type} {r : α → α → Prop} (wf : WellFounded r) {I : α → σ → Prop}
    (body : ∀ a, Triple step C (I a) fun s => Q s ∨ ∃ b, r b a ∧ I b s) (a : α) :
    Triple step C (I a) Q := by
  induction a using wf.induction with
  | h a ih =>
    refine (body a).seq fun s => ?_
    rintro (exits | ⟨b, smaller, again⟩)
    · exact .here exits
    · exact ih b smaller s again

end Triple

/-- **Soundness and completeness of ranked assertions.** The machine gets from a state to one with
`Q` exactly when there is an assertion with a rank that the state meets, and that every step from a
state without `Q` keeps with a smaller rank. -/
theorem gets_iff_ranked {s : σ} : Gets step C Q s ↔
    ∃ I : Nat → σ → Prop, (∃ n, I n s) ∧
      ∀ n t, I n t → Q t ∨ C t ∧ ∃ m < n, I m (step t) := by
  constructor
  · rintro ⟨k, arrived, via⟩
    refine ⟨fun n t => Q (step^[n] t) ∧ ∀ j < n, C (step^[j] t), ⟨k, arrived, via⟩, ?_⟩
    rintro (_ | n) t ⟨arrived, via⟩
    · exact .inl arrived
    · exact .inr ⟨via 0 (Nat.succ_pos n), n, Nat.lt_succ_self n, arrived,
        fun j before => via (j + 1) (Nat.succ_lt_succ before)⟩
  · rintro ⟨I, ⟨n, start⟩, keeps⟩
    refine Triple.loop (r := (· < ·)) Nat.lt_wfRel.wf (fun a t ranked => ?_) n s start
    obtain arrived | ⟨allowed, m, smaller, next⟩ := keeps a t ranked
    · exact .here (.inl arrived)
    · exact .step_first allowed (.here (.inr ⟨m, smaller, next⟩))

end Triples

end Lib
