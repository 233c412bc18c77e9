import RocketVm.Asm.Lexer

/-!
# Programs

`rocketasm/program.c`: instructions with their operands, labels, and the two growing tables that
hold them.
-/

namespace RocketVm

open Lib

/-! ## Instructions and labels -/

/-- `rsm_label_t`. -/
structure RsmLabel where
  name : RsmIdent
  address : Word
deriving DecidableEq, Repr

/-- What a memory operand holds between its brackets: `rsm_mem_type_t` with its value. -/
inductive RsmMem
  | none
  | imm (imm : SInt32)
  | reg (reg : RvmReg)
  | label (name : RsmIdent)
deriving DecidableEq, Repr

/-- `rsm_operand_t`: each type with the members it uses. The type `RSM_OPERAND_INVALID`, which
only ever leaves `rsm_parser_parse_operand` as an error, is the absence of an operand there. -/
inductive RsmOperand
  | none
  | imm (imm : SInt32)
  | reg (reg : RvmReg)
  | label (name : RsmIdent)
  | mem (mem : RsmMem)
deriving DecidableEq, Repr

/-- `rsm_instr_t`. -/
structure RsmInstr where
  opcode : RvmOpcode
  opr1 : RsmOperand
  opr2 : RsmOperand
deriving DecidableEq, Repr

/-! ## Tables -/

/-- A growing table: its items, the capacity the program records, and the number of slots the
block behind its pointer really has. -/
structure RsmTable (α : Type) where
  items : List α
  capacity : Nat
  allocated : Nat
deriving DecidableEq, Repr

def RsmTable.create {α : Type} : RsmTable α := ⟨[], 1024, 1024⟩

/-- `table[count++] = item`. -/
def RsmTable.append {α : Type} (table : RsmTable α) (item : α) :
    Traced RsmEvent (Int × RsmTable α) := do
  Traced.emit (.store table.items.length table.allocated)
  return (0, { table with items := table.items ++ [item] })

/-- A push into a table of items of `size` bytes. `realloc` tells which block sizes the allocator
can provide. -/
def RsmTable.push {α : Type} (size : Nat) (realloc : Nat → Bool) (table : RsmTable α) (item : α) :
    Traced RsmEvent (Int × RsmTable α) := do
  if table.items.length ≥ table.capacity then
    let newCap := table.capacity * 2
    if !realloc (size * newCap) then
      Traced.emit (.error "realloc")
      return (-1, table)
    else
      RsmTable.append { table with capacity := newCap, allocated := newCap } item
  else
    table.append item

/-- `rsm_program_t`. -/
structure RsmProgram where
  instrs : RsmTable RsmInstr
  labels : RsmTable RsmLabel
deriving DecidableEq, Repr

def rsmProgramCreate : RsmProgram := ⟨.create, .create⟩

def RSM_INSTR_SIZE : Nat := 56
def RSM_LABEL_SIZE : Nat := 24

def rsmProgramPushInstr (realloc : Nat → Bool) (prog : RsmProgram) (instr : RsmInstr) :
    Traced RsmEvent (Int × RsmProgram) := do
  let (ret, instrs) ← prog.instrs.push RSM_INSTR_SIZE realloc instr
  return (ret, { prog with instrs := instrs })

def rsmProgramPushLabel (realloc : Nat → Bool) (prog : RsmProgram) (label : RsmLabel) :
    Traced RsmEvent (Int × RsmProgram) := do
  let (ret, labels) ← prog.labels.push RSM_LABEL_SIZE realloc label
  return (ret, { prog with labels := labels })

/-! ## Label lookup -/

/-- `strncmp` on two slices of at least `n` bytes. -/
def strncmp : List Byte → List Byte → Nat → Int
  | a :: as, b :: bs, n + 1 =>
    if a ≠ b then (a.toNat : Int) - b.toNat
    else if a = 0 then 0
    else strncmp as bs n
  | _, _, _ => 0

/-- The loop of `rsm_program_find_label_address`. -/
def findLabelAddress (name : RsmIdent) : List RsmLabel → Int
  | [] => -1
  | label :: labels =>
    if label.name.bytes.length = name.bytes.length ∧
        strncmp label.name.bytes name.bytes name.bytes.length = 0 then
      label.address.toNat
    else
      findLabelAddress name labels

def rsmProgramFindLabelAddress (prog : RsmProgram) (name : RsmIdent) : Int :=
  findLabelAddress name prog.labels.items

/-- The address of the first label of a program with a given name. -/
def RsmProgram.address? (prog : RsmProgram) (name : RsmIdent) : Option Word :=
  (prog.labels.items.find? fun label => decide (label.name = name)).map RsmLabel.address

end RocketVm
