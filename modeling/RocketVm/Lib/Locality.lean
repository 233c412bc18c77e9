import RocketVm.Lib.Traced
import Mathlib.Order.BooleanAlgebra.Set

/-!
# What a computation depends on

Events read and write locations. `needs` are the locations a trace reads before it writes them,
`written` those it writes. `Follows` compares two computations that agree on the locations `X` to
begin with: if the first needs no other location, the second leaves the same trace, and the results
agree on `X` and on what was written. What agreeing means for a result is a parameter, so the rules
compose computations that pass on registers, memories, or anything made of them.
-/

namespace Lib

variable {ε ι α β : Type} (reads writes : ε → Set ι)

/-- The locations that a trace reads and has not written before. -/
def needs : List ε → Set ι
  | [] => ∅
  | e :: es => reads e ∪ (needs es \ writes e)

/-- The locations that a trace writes. -/
def written (es : List ε) : Set ι := {i | ∃ e ∈ es, i ∈ writes e}

variable {reads writes}

@[simp] theorem needs_nil : needs reads writes [] = ∅ := rfl

@[simp] theorem written_nil : written writes [] = ∅ :=
  Set.eq_empty_of_forall_notMem fun _ ⟨_, absent, _⟩ => absurd absent List.not_mem_nil

theorem written_cons (e : ε) (es : List ε) :
    written writes (e :: es) = writes e ∪ written writes es := by
  ext i
  simp only [written, List.mem_cons, exists_eq_or_imp, Set.mem_ofPred_eq, Set.mem_union]

theorem written_append (es es' : List ε) :
    written writes (es ++ es') = written writes es ∪ written writes es' := by
  ext i
  simp only [written, List.mem_append, or_and_right, exists_or, Set.mem_ofPred_eq, Set.mem_union]

theorem needs_append (es es' : List ε) : needs reads writes (es ++ es') =
    needs reads writes es ∪ (needs reads writes es' \ written writes es) := by
  induction es with
  | nil => simp only [List.nil_append, needs_nil, written_nil, Set.sdiff_empty, Set.empty_union]
  | cons e es ih =>
    rw [List.cons_append, needs, ih, needs, written_cons, Set.union_sdiff_distrib, Set.sdiff_sdiff,
      Set.union_comm (written writes es), Set.union_assoc]

variable (reads writes) in
/-- Where the first computation needs nothing outside `X`, the second has the same trace, and the
results agree on `X` and what was written. -/
def Follows (X : Set ι) (agree : Set ι → α → α → Prop) (x y : Traced ε α) : Prop :=
  needs reads writes x.events ⊆ X →
    y.events = x.events ∧ agree (X ∪ written writes x.events) x.val y.val

namespace Follows

variable {X : Set ι} {R : Set ι → α → α → Prop} {S : Set ι → β → β → Prop} {x y : Traced ε α}

theorem pure {a b : α} (same : R X a b) :
    Follows reads writes X R (pure a : Traced ε α) (pure b) := by
  intro _
  rw [Traced.events_pure, Traced.events_pure, written_nil, Set.union_empty]
  exact ⟨rfl, same⟩

/-- A computation follows itself. -/
theorem refl (x : Traced ε α) : Follows reads writes X (fun _ a b => a = b) x x :=
  fun _ => ⟨rfl, rfl⟩

/-- **Sequences.** The second halves start from results that agree on what the first half has
written as well. -/
theorem bind {f g : α → Traced ε β} (first : Follows reads writes X R x y)
    (rest : R (X ∪ written writes x.events) x.val y.val →
      Follows reads writes (X ∪ written writes x.events) S (f x.val) (g y.val)) :
    Follows reads writes X S (x >>= f) (y >>= g) := by
  intro enough
  rw [Traced.events_bind, needs_append, Set.union_subset_iff, Set.sdiff_subset_iff,
    Set.union_comm (written writes x.events)] at enough
  obtain ⟨firstEvents, firstSame⟩ := first enough.1
  obtain ⟨restEvents, restSame⟩ := rest firstSame enough.2
  rw [Traced.events_bind, Traced.events_bind, firstEvents, restEvents, written_append,
    ← Set.union_assoc]
  exact ⟨rfl, restSame⟩

/-- A first half that both computations share. -/
theorem seq {f g : α → Traced ε β}
    (rest : Follows reads writes (X ∪ written writes x.events) S (f x.val) (g x.val)) :
    Follows reads writes X S (x >>= f) (x >>= g) :=
  (refl x).bind fun _ => rest

end Follows

end Lib
