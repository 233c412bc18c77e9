import RocketVm.Asm.Program

/-!
# The encoder

`rocketasm/encoder.c`: the resolution of labels and the translation of one instruction into a
word. The functions return a C `int`, with -1 for an error next to the words and offsets.
-/

namespace RocketVm

open Lib

/-! ## Labels -/

/-- The check of one operand of `rsm_resolve_labels`. -/
def labelUndefined (program : RsmProgram) : RsmOperand → Bool
  | .label name => decide (rsmProgramFindLabelAddress program name < 0)
  | _ => false

/-- The members `label_size` and `value.label` of an operand, as the report passes them. -/
def RsmOperand.labelArgs : RsmOperand → List RsmArg
  | .label name => name.args
  | _ => []

/-- The loop of `rsm_resolve_labels`. -/
def resolveLabels (program : RsmProgram) : List RsmInstr → Traced RsmEvent Int
  | [] => return 0
  | instr :: instrs => do
    if labelUndefined program instr.opr1 then
      Traced.emit (.info "undefined label: %*.s\n" instr.opr1.labelArgs)
      return -1
    else if labelUndefined program instr.opr2 then
      Traced.emit (.info "undefined label: %*.s\n" instr.opr2.labelArgs)
      return -1
    else
      resolveLabels program instrs

def rsmResolveLabels (program : RsmProgram) : Traced RsmEvent Int :=
  resolveLabels program program.instrs.items

/-- `(int)` of a `size_t`. -/
def intOfSize (n : Nat) : Int := (BitVec.ofNat 32 n).toInt

/-- The distance in bytes from the instruction behind `instrIdx` to a label. -/
def rsmResolveLabel (program : RsmProgram) (name : RsmIdent) (instrIdx : Nat) :
    Traced RsmEvent Int := do
  let addr := rsmProgramFindLabelAddress program name
  if addr < 0 then
    Traced.emit (.info "undefined label: %*.s\n" name.args)
    return -1
  else
    Traced.emit (.int (addr - intOfSize instrIdx))
    Traced.emit (.int (addr - intOfSize instrIdx - 1))
    Traced.emit (.int ((addr - intOfSize instrIdx - 1) * 2))
    return (addr - intOfSize instrIdx - 1) * 2

/-! ## Operand shapes

What a group of cases of the encoder's `switch` does with the operands, given the builders the
cases call. The answer is what the C function returns, or nothing where the case breaks out of
the `switch`. -/

/-- A destination register and a register or immediate. -/
def encodeSource (imm : RvmReg → Byte → Word) (reg : RvmReg → RvmReg → Word) :
    RsmOperand → RsmOperand → Option Int
  | .reg rvd, .imm v => some (imm rvd (v.setWidth 8)).toNat
  | .reg rvd, .reg rvs => some (reg rvd rvs).toNat
  | _, _ => none

/-- A register and a memory operand. -/
def encodeMem (addrOf : RvmReg → Byte → Word) (regOf : RvmReg → RvmReg → Word)
    (program : RsmProgram) (r : RvmReg) : RsmMem → Traced RsmEvent (Option Int)
  | .imm v => return some (addrOf r (v.setWidth 8)).toNat
  | .reg raddr => return some (regOf r raddr).toNat
  | .label name => do
    let addr := rsmProgramFindLabelAddress program name
    if addr < 0 then
      -- here the pointer is passed for the width, and the length for the name
      Traced.emit (.info "undefined label: %*.s\n" name.args.reverse)
      return some (-1)
    else
      return some (addrOf r (BitVec.ofInt 8 addr)).toNat
  | .none => return none

/-- The target of a control-flow instruction. -/
def encodeTarget (imm : Word → Traced RsmEvent Word) (reg : RvmReg → Word) (program : RsmProgram)
    (instrIdx : Nat) : RsmOperand → Traced RsmEvent (Option Int)
  | .label name => do
    let simm ← rsmResolveLabel program name instrIdx
    if simm = -1 then
      Traced.emit (.error "rsm_resolver_resolve_label failed")
      return some (-1)
    else
      let word ← imm (BitVec.ofInt 16 simm)
      return some word.toNat
  | .reg r => return some (reg r).toNat
  | _ => return none

/-! ## Instructions -/

/-- The `switch` of `rsm_encode_instr`. -/
def encodeOpcode (program : RsmProgram) (instr : RsmInstr) (instrIdx : Nat) :
    Traced RsmEvent (Option Int) :=
  match instr.opcode with
  | .mov => return encodeSource rvmMovImm rvmMovReg instr.opr1 instr.opr2
  | .load =>
    match instr.opr1, instr.opr2 with
    | .reg rvd, .mem mem => encodeMem rvmLoadAddr rvmLoadReg program rvd mem
    | _, _ => return none
  | .store =>
    match instr.opr1, instr.opr2 with
    | .mem mem, .reg rvs => encodeMem rvmStoreAddr rvmStoreReg program rvs mem
    | _, _ => return none
  | .add => return encodeSource rvmAddImm rvmAddReg instr.opr1 instr.opr2
  | .sub => return encodeSource rvmSubImm rvmSubReg instr.opr1 instr.opr2
  | .mul => return encodeSource rvmMulImm rvmMulReg instr.opr1 instr.opr2
  | .div => return encodeSource rvmDivImm rvmDivReg instr.opr1 instr.opr2
  | .mod => return encodeSource rvmModImm rvmModReg instr.opr1 instr.opr2
  | .shl => return encodeSource rvmShlImm rvmShlReg instr.opr1 instr.opr2
  | .shr => return encodeSource rvmShrImm rvmShrReg instr.opr1 instr.opr2
  | .cmp => return encodeSource rvmCmpImm rvmCmpReg instr.opr1 instr.opr2
  | .jmp => encodeTarget rvmJmpImm rvmJmpReg program instrIdx instr.opr1
  | .jz => encodeTarget rvmJzImm rvmJzReg program instrIdx instr.opr1
  | .jnz => encodeTarget rvmJnzImm rvmJnzReg program instrIdx instr.opr1
  | .call => encodeTarget rvmCallImm rvmCallReg program instrIdx instr.opr1
  | .ret => return some rvmRet.toNat

def rsmEncodeInstr (program : RsmProgram) (instr : RsmInstr) (instrIdx : Nat) :
    Traced RsmEvent Int := do
  let encoded ← encodeOpcode program instr instrIdx
  match encoded with
  | some ret => return ret
  | none =>
    Traced.emit (.error "invalid instruction encoding (opcode=%d)" [.int instr.opcode.code])
    return -1

end RocketVm
