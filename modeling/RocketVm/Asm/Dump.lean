import RocketVm.Asm.Program

/-!
# Dumps

The listings of `rocketasm/program.c`, which a build with `DEBUG` prints before it emits a program.
-/

namespace RocketVm

open Lib

/-! ## Instructions -/

/-- What `rsm_dump_operand` prints between the brackets of a memory operand. -/
def dumpMem : RsmMem → List Byte
  | .imm v => printD v
  | .reg r => bytesOf (rvmRegToString r.val)
  | .label name => name.bytes
  | .none => bytesOf "?"

def rsmDumpOperand : RsmOperand → List Byte
  | .none => bytesOf "none"
  | .imm v => printD v
  | .reg r => bytesOf (rvmRegToString r.val)
  | .label name => name.bytes
  | .mem mem => bytesOf "[" ++ dumpMem mem ++ bytesOf "]"

/-- The column in front of an instruction or a label. -/
def dumpIndex (i : Nat) : List Byte := bytesOf "[" ++ printU04 i ++ bytesOf "] "

/-- The line of an instruction, behind the column. -/
def dumpInstr (instr : RsmInstr) : List Byte :=
  bytesOf (rvmOpcodeToString instr.opcode.code) ++ bytesOf " " ++
    (if instr.opr1 ≠ .none then rsmDumpOperand instr.opr1 else []) ++
    (if instr.opr2 ≠ .none then bytesOf ", " ++ rsmDumpOperand instr.opr2 else []) ++ bytesOf "\n"

/-- The loop of `rsm_program_dump_instrs`, at an index. -/
def dumpInstrs : Nat → List RsmInstr → List Byte
  | _, [] => []
  | i, instr :: instrs => dumpIndex i ++ dumpInstr instr ++ dumpInstrs (i + 1) instrs

def rsmProgramDumpInstrs (prog : RsmProgram) : List Byte :=
  bytesOf "=== PROGRAM INSTRUCTIONS (" ++ printU prog.instrs.items.length ++ bytesOf ") ===\n" ++
    dumpInstrs 0 prog.instrs.items

/-! ## Labels -/

/-- The line of a label, behind the column. -/
def dumpLabel (label : RsmLabel) : List Byte :=
  label.name.bytes ++ bytesOf " -> 0x" ++ printX04 label.address.toNat ++ bytesOf " (" ++
    printU label.address.toNat ++ bytesOf ")\n"

/-- The loop of `rsm_program_dump_labels`, at an index. -/
def dumpLabels : Nat → List RsmLabel → List Byte
  | _, [] => []
  | i, label :: labels => dumpIndex i ++ dumpLabel label ++ dumpLabels (i + 1) labels

def rsmProgramDumpLabels (prog : RsmProgram) : List Byte :=
  bytesOf "=== PROGRAM LABELS (" ++ printU prog.labels.items.length ++ bytesOf ") ===\n" ++
    dumpLabels 0 prog.labels.items

end RocketVm
