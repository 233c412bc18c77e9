import Mathlib.Tactic.Common

/-!
# Traced computations

A `Traced ε α` is a value together with the events observed while it was computed: a writer
monad over lists. Programs that are modelled by their results alone lose what they did on the
way (the addresses they touched, the divisors they used); a traced model keeps both, and a
safety statement becomes a statement about every event of the trace.
-/

namespace Lib

/-- A value and the events emitted while computing it, oldest first. -/
structure Traced (ε α : Type) where
  val : α
  events : List ε

namespace Traced

variable {ε α β : Type}

instance : Monad (Traced ε) where
  pure a := ⟨a, []⟩
  bind x f := ⟨(f x.val).val, x.events ++ (f x.val).events⟩

/-- Emit one event. -/
def emit (e : ε) : Traced ε Unit := ⟨(), [e]⟩

@[simp] theorem val_pure (a : α) : (pure a : Traced ε α).val = a := rfl

@[simp] theorem events_pure (a : α) : (pure a : Traced ε α).events = [] := rfl

@[simp] theorem val_bind (x : Traced ε α) (f : α → Traced ε β) :
    (x >>= f).val = (f x.val).val := rfl

@[simp] theorem events_bind (x : Traced ε α) (f : α → Traced ε β) :
    (x >>= f).events = x.events ++ (f x.val).events := rfl

@[simp] theorem val_emit (e : ε) : (emit e).val = () := rfl

@[simp] theorem events_emit (e : ε) : (emit e).events = [e] := rfl

/-- Two traced computations with one value and one trace are one computation. -/
theorem ext_iff {x y : Traced ε α} : x = y ↔ x.val = y.val ∧ x.events = y.events := by
  cases x
  cases y
  simp only [mk.injEq]

/-- Every event of the computation satisfies `p`. -/
def All (p : ε → Prop) (x : Traced ε α) : Prop := ∀ e ∈ x.events, p e

@[simp] theorem all_pure (p : ε → Prop) (a : α) : (pure a : Traced ε α).All p := by
  intro e he
  exact absurd he List.not_mem_nil

@[simp] theorem all_emit (p : ε → Prop) (e : ε) : (emit e).All p ↔ p e := by
  simp only [All, events_emit, List.mem_singleton, forall_eq]

/-- A sequence satisfies `p` when both its halves do. -/
@[simp] theorem all_bind (p : ε → Prop) (x : Traced ε α) (f : α → Traced ε β) :
    (x >>= f).All p ↔ x.All p ∧ (f x.val).All p := by
  simp only [All, events_bind, List.mem_append, or_imp, forall_and]

/-! ## Renamed events -/

/-- The computation with its events seen as events of another type. -/
def mapEvents {δ : Type} (f : ε → δ) (x : Traced ε α) : Traced δ α := ⟨x.val, x.events.map f⟩

@[simp] theorem mapEvents_pure {δ : Type} (f : ε → δ) (a : α) :
    (pure a : Traced ε α).mapEvents f = pure a := rfl

@[simp] theorem mapEvents_emit {δ : Type} (f : ε → δ) (e : ε) :
    (emit e).mapEvents f = emit (f e) := rfl

@[simp] theorem mapEvents_bind {δ : Type} (f : ε → δ) (x : Traced ε α) (g : α → Traced ε β) :
    (x >>= g).mapEvents f = x.mapEvents f >>= fun a => (g a).mapEvents f :=
  ext_iff.mpr ⟨rfl, List.map_append⟩

@[simp] theorem val_mapEvents {δ : Type} (f : ε → δ) (x : Traced ε α) :
    (x.mapEvents f).val = x.val := rfl

@[simp] theorem all_mapEvents {δ : Type} (f : ε → δ) (p : δ → Prop) (x : Traced ε α) :
    (x.mapEvents f).All p ↔ x.All fun e => p (f e) := by
  simp only [All, mapEvents, List.mem_map, forall_exists_index, and_imp,
    forall_apply_eq_imp_iff₂]

/-! ## Conditions on the result -/

/-- When the result satisfies `q`, every event satisfies `p`. -/
def AllWhen (p : ε → Prop) (q : α → Prop) (x : Traced ε α) : Prop := q x.val → x.All p

namespace AllWhen

variable {p : ε → Prop} {q : β → Prop} {r : α → Prop} {x : Traced ε α} {f : α → Traced ε β}

theorem of_all (all : x.All p) : x.AllWhen p r := fun _ => all

/-- A value that was computed without an event. -/
theorem pure (a : α) : (pure a : Traced ε α).AllWhen p r := of_all (all_pure p a)

/-- A computation whose result does not satisfy the condition. -/
theorem failed (fails : ¬ r x.val) : x.AllWhen p r := fun holds => absurd holds fails

/-- **Sequences.** What the whole result says about the first half's is what that half needs. -/
theorem bind (first : x.AllWhen p r) (needed : q (f x.val).val → r x.val)
    (rest : (f x.val).AllWhen p q) : (x >>= f).AllWhen p q := fun holds =>
  (all_bind p x f).mpr ⟨first (needed holds), rest holds⟩

/-- A sequence whose first half needs nothing. -/
theorem seq (first : x.All p) (rest : (f x.val).AllWhen p q) : (x >>= f).AllWhen p q :=
  bind (r := fun _ => True) (of_all first) (fun _ => trivial) rest

end AllWhen

/-! ## Counting -/

section Count

variable [DecidableEq ε] (e : ε)

/-- How often an event occurs in the trace. -/
def count (x : Traced ε α) : Nat := x.events.count e

@[simp] theorem count_pure (a : α) : (pure a : Traced ε α).count e = 0 := rfl

@[simp] theorem count_emit (e' : ε) : (emit e').count e = if e' = e then 1 else 0 := by
  simp only [count, events_emit, List.count_singleton, beq_iff_eq]

@[simp] theorem count_bind (x : Traced ε α) (f : α → Traced ε β) :
    (x >>= f).count e = x.count e + (f x.val).count e := by
  simp only [count, events_bind, List.count_append]

end Count

end Traced

end Lib
