import Mathlib.Logic.Function.Iterate
import Mathlib.SetTheory.Cardinal.Finite

/-!
# Recurrence

On a finite set of states an iterated function comes back to a state it has been in, within as many
steps as there are states, and from then on it meets no other. So a condition holds along a whole
orbit exactly when it holds until a state comes back.
-/

namespace Lib

variable {σ : Type} {f : σ → σ} {s : σ}

/-- After a state came back, every state of the orbit is one from before. -/
theorem exists_before_of_recurs {i j : Nat} (before : i < j) (same : f^[i] s = f^[j] s) (k : Nat) :
    ∃ k' < j, f^[k'] s = f^[k] s := by
  induction k using Nat.strongRecOn with
  | ind k ih =>
    by_cases inside : k < j
    · exact ⟨k, inside, rfl⟩
    · have past := Nat.not_lt.mp inside
      obtain ⟨k', early, reached⟩ := ih (k - j + i) (by omega)
      refine ⟨k', early, ?_⟩
      calc f^[k'] s = f^[k - j] (f^[i] s) := reached.trans (Function.iterate_add_apply f _ _ _)
        _ = f^[k - j] (f^[j] s) := by rw [same]
        _ = f^[k] s := by rw [← Function.iterate_add_apply, Nat.sub_add_cancel past]

/-- A state comes back within as many steps as there are states. -/
theorem exists_recurs [Finite σ] {n : Nat} (card : Nat.card σ ≤ n) (f : σ → σ) (s : σ) :
    ∃ i j, i < j ∧ j ≤ n ∧ f^[i] s = f^[j] s := by
  have collides : ¬ Function.Injective fun k : Fin (n + 1) => f^[k.val] s := fun injective => by
    have := Nat.card_le_card_of_injective _ injective
    rw [Nat.card_eq_fintype_card, Fintype.card_fin] at this
    omega
  obtain ⟨i, j, same, other⟩ := Function.not_injective_iff.mp collides
  rcases Nat.lt_or_gt_of_ne (fun h => other (Fin.ext h)) with before | after
  · exact ⟨i, j, before, Nat.le_of_lt_succ j.isLt, same⟩
  · exact ⟨j, i, after, Nat.le_of_lt_succ i.isLt, same.symm⟩

/-- **Recurrence.** A condition holds along an orbit exactly when a state comes back before it
fails. -/
theorem forall_iterate_iff [Finite σ] {n : Nat} (card : Nat.card σ ≤ n) {P : σ → Prop} :
    (∀ k, P (f^[k] s)) ↔
      ∃ i j, i < j ∧ j ≤ n ∧ f^[i] s = f^[j] s ∧ ∀ k < j, P (f^[k] s) := by
  constructor
  · intro holds
    obtain ⟨i, j, before, bound, same⟩ := exists_recurs card f s
    exact ⟨i, j, before, bound, same, fun k _ => holds k⟩
  · rintro ⟨i, j, before, _, same, holds⟩ k
    obtain ⟨k', early, reached⟩ := exists_before_of_recurs before same k
    exact reached ▸ holds k' early

end Lib
