import RocketVm.Laws.Disassembly
import RocketVm.Laws.Reports

/-!
# Debug and release builds

A Debug build of the assembler aborts at an assertion that does not hold; a Release build goes on.
The assertions are those of the relative forms, so the builds differ exactly on the programs that
have a jump to a label out of its reach (`debug_build_aborts_iff`).
-/

namespace RocketVm

open Lib Traced

/-- The event is no assertion that fails. -/
def RsmEvent.Holds : RsmEvent → Prop
  | .assertion holds _ => holds = true
  | _ => True

/-- Any other event before a result. -/
theorem holds_then {α : Type} {e : RsmEvent} (other : e.Holds) (a : α) :
    Traced.All RsmEvent.Holds (do Traced.emit e; return a) :=
  (all_bind _ _ _).mpr ⟨(all_emit _ _).mpr other, all_pure _ _⟩

section Encode

variable {program : RsmProgram} {i : Nat}

theorem rsmResolveLabel_holds (program : RsmProgram) (name : RsmIdent) (i : Nat) :
    (rsmResolveLabel program name i).All RsmEvent.Holds := by
  unfold rsmResolveLabel
  dsimp only
  split
  · exact holds_then (by trivial) _
  · simp only [all_bind, all_emit, all_pure, and_true]
    exact ⟨trivial, trivial, trivial⟩

theorem encodeMem_holds (addrOf : RvmReg → Byte → Word) (regOf : RvmReg → RvmReg → Word)
    (program : RsmProgram) (r : RvmReg) (mem : RsmMem) :
    (encodeMem addrOf regOf program r mem).All RsmEvent.Holds := by
  cases mem with
  | label name =>
    rw [encodeMem]
    split
    · exact holds_then (by trivial) _
    · exact all_pure _ _
  | _ => exact all_pure _ _

/-- The target of a control-flow instruction passes its assertion when it is no label out of
reach. -/
theorem encodeTarget_holds_iff {op : RvmOpcode} (text : String) (opr : RsmOperand)
    (small : i < 0x4000)
    (inside : ∀ name a, program.address? name = some a → a.toNat ≤ 0x4000) :
    (encodeTarget (ctrlImm op text) (ctrlReg op) program i opr).All RsmEvent.Holds ↔
      ∀ name a, opr = .label name → program.address? name = some a → Reaches i a := by
  cases opr with
  | label name =>
    rw [encodeTarget, all_bind, and_iff_right (rsmResolveLabel_holds _ _ _)]
    cases defined : program.address? name with
    | none =>
      rw [rsmResolveLabel_missing program i defined, if_pos rfl]
      refine iff_of_true (holds_then (by trivial) _) ?_
      rintro _ a ⟨⟩ found
      cases defined.symm.trans found
    | some a =>
      have bound := inside name a defined
      have exact_ := ofInt_toInt (x := ((a.toNat : Int) - i - 1) * 2) (by omega) (by omega)
      rw [rsmResolveLabel_val program i defined, intOfSize_eq (by omega), if_neg (by omega),
        all_bind, ctrlImm, all_bind, all_emit]
      simp only [all_pure, and_true, RsmEvent.Holds, decide_eq_true_eq, exact_]
      constructor
      · rintro ⟨low, high⟩ _ a' ⟨⟩ found
        cases defined.symm.trans found
        exact ⟨by omega, by omega⟩
      · intro reaches
        obtain ⟨low, high⟩ := reaches name a rfl defined
        exact ⟨by omega, by omega⟩
  | _ =>
    refine iff_of_true (all_pure _ _) fun name a label => ?_
    cases label

/-- **One instruction** passes its assertion when it is no jump to a label out of reach. -/
theorem rsmEncodeInstr_holds_iff (instr : RsmInstr) (small : i < 0x4000)
    (inside : ∀ name a, program.address? name = some a → a.toNat ≤ 0x4000) :
    (rsmEncodeInstr program instr i).All RsmEvent.Holds ↔ ¬ FarLabel program i instr := by
  obtain ⟨op, opr1, opr2⟩ := instr
  rw [rsmEncodeInstr, all_bind]
  refine (and_iff_left ?_).trans ?_
  · split
    · exact all_pure _ _
    · exact holds_then (by trivial) _
  by_cases transfers : op.transfers = true
  · have target : ∃ text, encodeOpcode program ⟨op, opr1, opr2⟩ i =
        encodeTarget (ctrlImm op text) (ctrlReg op) program i opr1 := by
      cases op <;> first | exact ⟨_, rfl⟩ | cases transfers
    obtain ⟨text, same⟩ := target
    rw [same, encodeTarget_holds_iff text _ small inside]
    constructor
    · rintro reach ⟨name, a, _, label, defined, far⟩
      exact far (reach name a label defined)
    · intro near name a label defined
      by_contra far
      exact near ⟨name, a, transfers, label, defined, far⟩
  · have near : ¬ FarLabel program i ⟨op, opr1, opr2⟩ := by
      rintro ⟨_, _, other, _⟩
      exact transfers other
    refine iff_of_true ?_ near
    cases op with
    | jmp | jz | jnz | call => exact absurd rfl transfers
    | load | store =>
      unfold encodeOpcode
      dsimp only
      split
      · exact encodeMem_holds _ _ _ _ _
      · exact all_pure _ _
    | _ => exact all_pure _ _

/-- The loop of the emitter fails an assertion at a jump out of reach that it gets to. -/
theorem emitWords_holds_iff (io : RsmOutput) {program : RsmProgram} {i : Nat}
    {instrs : List RsmInstr} (small : i + instrs.length ≤ 0x4000)
    (inside : ∀ name a, program.address? name = some a → a.toNat ≤ 0x4000) (file : List Byte) :
    (emitWords io program i instrs file).All RsmEvent.Holds ↔
      ∀ j instr, instrs[j]? = some instr →
        (∀ j' < j, ∀ instr', instrs[j']? = some instr' →
          (rsmEncodeInstr program instr' (i + j')).val ≠ -1) →
        ¬ FarLabel program (i + j) instr := by
  induction instrs generalizing i file with
  | nil =>
    refine iff_of_true (holds_then (by trivial) _) fun j instr at_ => ?_
    cases at_
  | cons instr instrs ih =>
    rw [List.length_cons] at small
    rw [emitWords, all_bind, rsmEncodeInstr_holds_iff instr (by omega) inside]
    by_cases failed : (rsmEncodeInstr program instr i).val = -1
    · rw [if_pos failed, and_iff_left (holds_then (by trivial) _)]
      constructor
      · intro near j instr' at_ reached
        cases j with
        | zero =>
          cases at_
          exact near
        | succ j => exact absurd failed (reached 0 (Nat.succ_pos j) instr rfl)
      · exact fun near => near 0 instr rfl fun j' before => absurd before (Nat.not_lt_zero j')
    · rw [if_neg failed, ih (i := i + 1) (by omega)]
      constructor
      · rintro ⟨near, rest⟩ j instr' at_ reached
        cases j with
        | zero =>
          cases at_
          exact near
        | succ j =>
          rw [← Nat.add_assoc, Nat.add_right_comm]
          refine rest j instr' at_ fun j' before instr'' at_' => ?_
          rw [Nat.add_right_comm]
          exact reached (j' + 1) (Nat.succ_lt_succ before) instr'' at_'
      · intro near
        refine ⟨near 0 instr rfl fun j' before => absurd before (Nat.not_lt_zero j'),
          fun j instr' at_ reached => ?_⟩
        rw [Nat.add_right_comm]
        refine near (j + 1) instr' at_ fun j' before instr'' at_' => ?_
        cases j' with
        | zero =>
          cases at_'
          exact failed
        | succ j' =>
          have later := reached j' (Nat.lt_of_succ_lt_succ before) instr'' at_'
          rwa [Nat.add_right_comm] at later

end Encode

/-- The emitter gets to an index: every instruction before it has a word. -/
def GetsTo (program : RsmProgram) (i : Nat) : Prop :=
  ∀ j < i, ∀ instr, program.instrs.items[j]? = some instr →
    (rsmEncodeInstr program instr j).val ≠ -1

/-- **Builds.** Emitting a parsed program that fits the program region fails an assertion, so that a
Debug build aborts, exactly when the output can be opened and the emitter gets to a jump to a label
out of its reach. -/
theorem debug_build_aborts_iff {realloc : Nat → Bool} {src : List Byte} {program : RsmProgram}
    (parses : Parses realloc src program) (small : program.instrs.items.length ≤ 0x4000)
    (io : RsmOutput) (old : List Byte) :
    (∃ text, .assertion false text ∈ (rsmEmitBinary io program old).events) ↔
      io.fopen = true ∧ ∃ i instr, program.instrs.items[i]? = some instr ∧ GetsTo program i ∧
        FarLabel program i instr := by
  have inside : ∀ name a, program.address? name = some a → a.toNat ≤ 0x4000 := fun _ _ defined =>
    (parses.address_le defined).trans small
  have fails : (∃ text, RsmEvent.assertion false text ∈ (rsmEmitBinary io program old).events) ↔
      ¬ (rsmEmitBinary io program old).All RsmEvent.Holds := by
    constructor
    · rintro ⟨text, mem⟩ holds
      exact Bool.false_ne_true (holds _ mem)
    · intro fails
      by_contra none
      refine fails fun e mem => ?_
      cases e with
      | assertion holds text =>
        cases holds with
        | true => rfl
        | false => exact absurd ⟨text, mem⟩ none
      | _ => trivial
  rw [fails]
  cases opened : io.fopen with
  | false =>
    refine iff_of_false (not_not.mpr ?_) fun both => Bool.false_ne_true both.1
    rw [rsmEmitBinary, opened]
    exact holds_then (by trivial) _
  | true =>
    rw [rsmEmitBinary_opened opened, emitWords_holds_iff io (by omega) inside, and_iff_right rfl]
    simp only [Nat.zero_add, GetsTo]
    push Not
    rfl

theorem debug_build_aborts_iff_loop :
    (∃ text, .assertion false text ∈ (rsmEmitBinary .working loopProgram []).events) ↔
      RsmOutput.working.fopen = true ∧ ∃ i instr, loopProgram.instrs.items[i]? = some instr ∧
        GetsTo loopProgram i ∧ FarLabel loopProgram i instr :=
  debug_build_aborts_iff loop_parses (by decide) .working []

end RocketVm
