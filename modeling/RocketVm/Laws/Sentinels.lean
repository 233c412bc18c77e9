import RocketVm.Laws.Integers
import RocketVm.Laws.Labels

/-!
# The error value -1

The lookup of a label, the distance to a label and the word of an instruction are returned in an
`int` that also carries -1 for an error. An address and a word are not negative and a distance is
even, so no result is taken for an error.
-/

namespace RocketVm

open Lib

/-! ## Lookup -/

/-- What a lookup of `bytes` in a table returns. -/
inductive Lookup (bytes : List Byte) : List RsmLabel → Int → Prop
  | found {before after : List RsmLabel} {label : RsmLabel} (same : label.name.bytes = bytes)
      (first : ∀ earlier ∈ before, earlier.name.bytes ≠ bytes) :
      Lookup bytes (before ++ label :: after) label.address.toNat
  | missing {table : List RsmLabel} (absent : ∀ label ∈ table, label.name.bytes ≠ bytes) :
      Lookup bytes table (-1)

theorem rsmProgramFindLabelAddress_lookup (program : RsmProgram) (name : RsmIdent) :
    Lookup name.bytes program.labels.items (rsmProgramFindLabelAddress program name) := by
  rw [rsmProgramFindLabelAddress, findLabelAddress_eq]
  cases look : program.labels.items.find? fun label => decide (label.name = name) with
  | none =>
    refine .missing fun label mem same => ?_
    rw [List.find?_eq_none] at look
    exact look label mem (decide_eq_true (RsmIdent.bytes_injective same))
  | some label =>
    obtain ⟨same, before, after, table, first⟩ := List.find?_eq_some_iff_append.mp look
    rw [table]
    refine .found (congrArg RsmIdent.bytes (of_decide_eq_true same)) fun earlier mem bytes => ?_
    have differs := first earlier mem
    rw [Bool.not_eq_true', decide_eq_false_iff_not] at differs
    exact differs (RsmIdent.bytes_injective bytes)

theorem lookup_missing_iff (program : RsmProgram) (name : RsmIdent) :
    rsmProgramFindLabelAddress program name = -1 ↔ ¬ program.Defines name := by
  rw [undefined_iff]
  cases found : program.address? name with
  | none => exact iff_of_true (rsmProgramFindLabelAddress_none found) rfl
  | some a =>
    rw [rsmProgramFindLabelAddress_some found]
    exact iff_of_false (by omega) (Option.some_ne_none a)

/-! ## Distances -/

/-- A value computed in `int` is one. -/
def RsmEvent.FitsInt : RsmEvent → Prop
  | .int value => IsInt value
  | _ => True

section Distance

variable (program : RsmProgram) (name : RsmIdent) {i : Nat}

/-- The distance of a defined label is twice a difference of indices, and so no error. -/
theorem rsmResolveLabel_exact (small : i < 2 ^ 29) {a : Word}
    (defined : program.address? name = some a) :
    (rsmResolveLabel program name i).val = 2 * ((a.toNat : Int) - i - 1) := by
  rw [rsmResolveLabel_val program i defined, intOfSize_eq (by omega), Int.mul_comm]

theorem rsmResolveLabel_missing_iff (small : i < 2 ^ 29) :
    (rsmResolveLabel program name i).val = -1 ↔ ¬ program.Defines name := by
  rw [undefined_iff]
  cases found : program.address? name with
  | none => exact iff_of_true (rsmResolveLabel_missing program i found) rfl
  | some a =>
    rw [rsmResolveLabel_exact program name small found]
    exact iff_of_false (by omega) (Option.some_ne_none a)

/-- Below index 2 ^ 29 the distance is computed without leaving `int`. -/
theorem rsmResolveLabel_fitsInt (small : i < 2 ^ 29) :
    (rsmResolveLabel program name i).All RsmEvent.FitsInt := by
  rw [rsmResolveLabel]
  cases found : program.address? name with
  | none =>
    rw [rsmProgramFindLabelAddress_none found]
    exact (Traced.all_bind _ _ _).mpr ⟨(Traced.all_emit _ _).mpr trivial, Traced.all_pure _ _⟩
  | some a =>
    have size := a.isLt
    have nonneg : ¬ ((a.toNat : Int) < 0) := by omega
    rw [rsmProgramFindLabelAddress_some found, intOfSize_eq (by omega)]
    simp only [nonneg, ↓reduceIte, Traced.all_bind, Traced.all_emit, Traced.all_pure, and_true,
      RsmEvent.FitsInt, IsInt]
    omega

end Distance

/-! ## Errors and results -/

theorem rsmResolveLabels_zero_iff (program : RsmProgram) :
    (rsmResolveLabels program).val = 0 ↔ ∀ instr ∈ program.instrs.items, ∀ name,
      instr.opr1 = .label name ∨ instr.opr2 = .label name → program.Defines name := by
  have operand : ∀ opr : RsmOperand,
      labelUndefined program opr = false ↔ ∀ name, opr = .label name → program.Defines name := by
    intro opr
    cases opr with
    | label name =>
      rw [labelUndefined_label, ← defines_iff_isSome]
      exact ⟨fun defined name' same => RsmOperand.label.inj same ▸ defined, fun all => all name rfl⟩
    | none | imm | reg | mem => exact iff_of_true rfl fun _ same => nomatch same
  rw [rsmResolveLabels, resolveLabels_zero]
  refine forall₂_congr fun instr _ => ?_
  simp only [operand, or_imp, forall_and]

/-- **The error value -1.** In every program, whatever its labels are called:
the lookup returns the address of the first entry with the bytes of the name, and -1 exactly when
there is none;
the distance to a label from an index below 2 ^ 29 is computed in `int`, it is -1 exactly for an
undefined label, and otherwise the exact difference of the byte addresses;
the resolver accepts exactly the programs whose label operands are all defined;
the encoder returns a word for every instruction that has one, and -1 exactly for the others. -/
theorem label_sentinels_sound (program : RsmProgram) :
    (∀ name : RsmIdent,
      Lookup name.bytes program.labels.items (rsmProgramFindLabelAddress program name) ∧
      (rsmProgramFindLabelAddress program name = -1 ↔ ¬ program.Defines name)) ∧
    (∀ (name : RsmIdent) (i : Nat), i < 2 ^ 29 →
      (rsmResolveLabel program name i).All RsmEvent.FitsInt ∧
      ((rsmResolveLabel program name i).val = -1 ↔ ¬ program.Defines name) ∧
      (program.Defines name → (rsmResolveLabel program name i).val =
        2 * (rsmProgramFindLabelAddress program name - i - 1))) ∧
    ((rsmResolveLabels program).val = 0 ↔ ∀ instr ∈ program.instrs.items, ∀ name,
      instr.opr1 = .label name ∨ instr.opr2 = .label name → program.Defines name) ∧
    (∀ (instr : RsmInstr) (i : Nat),
      (HasWord program instr → ∃ w : Word, (rsmEncodeInstr program instr i).val = w.toNat) ∧
      ((rsmEncodeInstr program instr i).val = -1 ↔ ¬ HasWord program instr)) := by
  refine ⟨fun name => ⟨rsmProgramFindLabelAddress_lookup program name,
    lookup_missing_iff program name⟩, fun name i small => ⟨?_, ?_, fun defined => ?_⟩,
    rsmResolveLabels_zero_iff program,
    fun instr i => ⟨fun has => has.encoded i, encode_error_iff i⟩⟩
  · exact rsmResolveLabel_fitsInt program name small
  · exact rsmResolveLabel_missing_iff program name small
  · obtain ⟨a, found⟩ := (defines_iff program name).mp defined
    rw [rsmResolveLabel_exact program name small found, rsmProgramFindLabelAddress_some found]

end RocketVm
