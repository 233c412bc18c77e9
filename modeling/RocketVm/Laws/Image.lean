import RocketVm.Laws.Emission
import RocketVm.Laws.Labels
import RocketVm.Laws.Load

/-!
# From a program to an image

Which programs the encoder has words for, what the emitter writes, and what the loader makes of
the file.
-/

namespace RocketVm

open Lib

/-! ## Phases -/

/-- A jump to a label that its offset field cannot reach. -/
def FarLabel (program : RsmProgram) (i : Nat) (instr : RsmInstr) : Prop :=
  ∃ name a, instr.opcode.transfers = true ∧ instr.opr1 = .label name ∧
    program.address? name = some a ∧ ¬ Reaches i a

/-- The operand names a label, as the target of a jump or in brackets. -/
def RsmOperand.Names (operand : RsmOperand) (name : RsmIdent) : Prop :=
  operand = .label name ∨ operand = .mem (.label name)

/-- Every label that an operand of the program names is defined. -/
def LabelsDefined (program : RsmProgram) : Prop :=
  ∀ instr ∈ program.instrs.items, ∀ name, instr.opr1.Names name ∨ instr.opr2.Names name →
    (program.address? name).isSome = true

/-- The instruction is of none of the two kinds that the parser and the resolver let pass and the
encoder does not expect. -/
structure Encodable (program : RsmProgram) (instr : RsmInstr) : Prop where
  /-- It is not a jump to a number. -/
  target : instr.opcode.transfers = true → instr.opr1.isImm = false
  /-- It has no undefined label in brackets. -/
  brackets : ∀ name, instr.opr1 = .mem (.label name) ∨ instr.opr2 = .mem (.label name) →
    (program.address? name).isSome = true

theorem RsmMem.given_of {program : RsmProgram} {mem : RsmMem} (given : mem ≠ .none)
    (defined : ∀ name, mem = .label name → (program.address? name).isSome = true) :
    mem.Given program := by
  cases mem with
  | none => exact given rfl
  | imm | reg => exact trivial
  | label name => exact (defines_iff_isSome program name).mpr (defined name rfl)

/-- An accepted instruction whose jump label is defined has a word when it is encodable. -/
theorem Encodable.hasWord {program : RsmProgram} {instr : RsmInstr}
    (encodable : Encodable program instr) (accepted : Accepted instr)
    (resolved : labelUndefined program instr.opr1 = false) : HasWord program instr := by
  obtain ⟨target, brackets⟩ := encodable
  obtain ⟨check, mem1, mem2⟩ := accepted
  cases accepted_shape check with
  | sourceImm takes => exact .sourceImm takes
  | sourceReg takes => exact .sourceReg takes
  | @load rvd mem =>
    refine .load (RsmMem.given_of (fun same => mem2 (congrArg _ same)) fun name same => ?_)
    exact brackets name (.inr (congrArg _ same))
  | @store mem rvs =>
    refine .store (RsmMem.given_of (fun same => mem1 (congrArg _ same)) fun name same => ?_)
    exact brackets name (.inl (congrArg _ same))
  | @toLabel op name opr2 transfers =>
    have defined := (labelUndefined_label program name).mp resolved
    exact .toLabel transfers ((defines_iff_isSome program name).mpr defined)
  | toReg transfers => exact .toReg transfers
  | toImm transfers => cases target transfers
  | ret => exact .ret

/-- A jump to a number has no word. -/
theorem target_of_encode_ne {program : RsmProgram} {instr : RsmInstr} {i : Nat}
    (transfers : instr.opcode.transfers = true)
    (encoded : (rsmEncodeInstr program instr i).val ≠ -1) : instr.opr1.isImm = false := by
  obtain ⟨op, opr1, opr2⟩ := instr
  cases opr1 with
  | imm v => exact absurd (encode_toImm program i transfers v opr2) encoded
  | _ => rfl

/-- **Phases.** Of a program that the parser and the resolver accept, every instruction has a word,
jumps to labels out of reach aside, and every label is defined, if and only if no jump or CALL is to
a number and every label in brackets is defined. -/
theorem phases_agree {realloc : Nat → Bool} {src : List Byte} {program : RsmProgram}
    (parses : Parses realloc src program) (resolved : (rsmResolveLabels program).val = 0) :
    ((∀ i instr, program.instrs.items[i]? = some instr → ¬ FarLabel program i instr →
        (rsmEncodeInstr program instr i).val ≠ -1) ∧ LabelsDefined program) ↔
    ∀ instr ∈ program.instrs.items, Encodable program instr := by
  constructor
  · rintro ⟨encoded, defined⟩ instr mem
    refine ⟨fun transfers => ?_, fun name names => defined instr mem name (names.imp .inr .inr)⟩
    obtain ⟨i, bound, at_⟩ := List.getElem_of_mem mem
    by_cases far : FarLabel program i instr
    · obtain ⟨name, a, _, label, _⟩ := far
      rw [label]
      rfl
    · exact target_of_encode_ne transfers
        (encoded i instr (List.getElem?_eq_some_iff.mpr ⟨bound, at_⟩) far)
  · intro encodable
    refine ⟨fun i instr at_ _ => ?_, fun instr mem name names => ?_⟩
    · have mem := List.mem_of_getElem? at_
      have has := (encodable instr mem).hasWord (parses.accepted instr mem)
        (resolveLabels_zero.mp resolved instr mem).1
      exact fun error => (encode_error_iff i).mp error has
    · obtain ⟨first, second⟩ := resolveLabels_zero.mp resolved instr mem
      rcases names with (label | bracket) | (label | bracket)
      · exact (labelUndefined_label program name).mp (label ▸ first)
      · exact (encodable instr mem).brackets name (.inl bracket)
      · exact (labelUndefined_label program name).mp (label ▸ second)
      · exact (encodable instr mem).brackets name (.inr bracket)

theorem phases_agree_loop :
    ((∀ i instr, loopProgram.instrs.items[i]? = some instr → ¬ FarLabel loopProgram i instr →
        (rsmEncodeInstr loopProgram instr i).val ≠ -1) ∧ LabelsDefined loopProgram) ↔
    ∀ instr ∈ loopProgram.instrs.items, Encodable loopProgram instr :=
  phases_agree loop_parses (by decide)

/-- The source `JMP 5`. -/
def jmpSource : List Byte := ['J', 'M', 'P', ' ', '5'].map chr

/-- `JMP 5` passes the parser and the resolver, and has no word. -/
theorem jmp_imm_not_encoded : ∃ program, Parses (fun _ => true) jmpSource program ∧
    (rsmResolveLabels program).val = 0 ∧
    ¬ ((∀ i instr, program.instrs.items[i]? = some instr → ¬ FarLabel program i instr →
        (rsmEncodeInstr program instr i).val ≠ -1) ∧ LabelsDefined program) := by
  refine ⟨jmpProgram, by unfold Parses; decide, by decide, fun all => ?_⟩
  refine all.1 0 ⟨.jmp, .imm 5, .none⟩ rfl ?_ (by decide)
  rintro ⟨name, a, _, label, _⟩
  cases label

/-! ## Emitted images -/

/-- **Emitted images.** The file that a successful emission leaves has two bytes for each
instruction. The reader refuses it when there is no instruction, and the VM stays as it was; from
one instruction to 0x8000 it is loaded into any VM, and memory then starts with its bytes. -/
theorem emitted_image_loads {program : RsmProgram} {old bytes : List Byte}
    (emitted : (rsmEmitBinary .working program old).val = (0, bytes)) :
    bytes.length = 2 * program.instrs.items.length ∧
    (program.instrs.items.length = 0 → rvmIoReadFile { content := bytes } = none ∧
      ∀ vm, rvmVmLoad vm { content := bytes } = (-1, vm)) ∧
    (1 ≤ program.instrs.items.length → program.instrs.items.length ≤ 0x8000 →
      rvmIoReadFile { content := bytes } = some bytes ∧
      ∀ vm, (rvmVmLoad vm { content := bytes }).1 = 0 ∧
        ∀ a b, bytes[a]? = some b → (rvmVmLoad vm { content := bytes }).2.mem.byte a = b) := by
  have length : bytes.length = 2 * program.instrs.items.length := by
    rw [rsmEmitBinary_bytes emitted, length_wordsToBytes, length_wordsFrom]
  refine ⟨length, fun none => ?_, fun some small => ?_⟩
  · have empty : bytes = [] := List.length_eq_zero_iff.mp (by omega)
    rw [empty]
    exact ⟨rfl, fun vm => rfl⟩
  · have nonempty : bytes ≠ [] := by
      rintro rfl
      rw [List.length_nil] at length
      omega
    have size : bytes.length ≤ RVM_MEMORY_SIZE := by
      unfold RVM_MEMORY_SIZE
      omega
    refine ⟨rvmIoReadFile_ok nonempty, fun vm => ?_⟩
    rw [rvmVmLoad_ok vm nonempty size]
    exact ⟨rfl, fun a b h => RvmMemory.byte_copy vm.mem h size⟩

def loopImage : List Byte := [0xFE, 0xB7]

theorem emitted_image_loads_loop :
    loopImage.length = 2 * loopProgram.instrs.items.length ∧
    (loopProgram.instrs.items.length = 0 → rvmIoReadFile { content := loopImage } = none ∧
      ∀ vm, rvmVmLoad vm { content := loopImage } = (-1, vm)) ∧
    (1 ≤ loopProgram.instrs.items.length → loopProgram.instrs.items.length ≤ 0x8000 →
      rvmIoReadFile { content := loopImage } = some loopImage ∧
      ∀ vm, (rvmVmLoad vm { content := loopImage }).1 = 0 ∧
        ∀ a b, loopImage[a]? = some b →
          (rvmVmLoad vm { content := loopImage }).2.mem.byte a = b) :=
  @emitted_image_loads loopProgram [] loopImage (by decide)

/-- A source of one newline is accepted by every phase of the assembler; the loader refuses the
empty file that comes of it. -/
theorem empty_image_not_loaded : ∃ program bytes, Parses (fun _ => true) [chr '\n'] program ∧
    (rsmResolveLabels program).val = 0 ∧ (rsmEmitBinary .working program []).val = (0, bytes) ∧
    ¬ (rvmVmLoad freshVm { content := bytes }).1 = 0 := by
  refine ⟨rsmProgramCreate, [], by unfold Parses; decide, by decide, by decide, ?_⟩
  show ¬ (-1 : Int) = 0
  decide

end RocketVm
