import RocketVm.Asm.Program
import RocketVm.Cpu.Alu
import RocketVm.Vm

/-!
# The source-level machine

What a program means before it is assembled: a machine that keeps an instruction index in place
of rip and executes the instruction at that index from its operands. It never fetches from memory.
The arithmetic is that of the CPU; operands, jumps, calls and returns are stated here on their own.
A label means the index of its instruction, and an address in a register or on the stack the index
that it is twice of.
-/

namespace RocketVm

open Lib

structure SourceState where
  pc : Nat
  rv : RvmReg → Word
  rsp : Word
  flags : Word
  halt : Bool
  mem : RvmMemory

/-- What an opcode with a source operand computes. -/
def RvmOpcode.compute : RvmOpcode → RvmCpu → RvmReg → Word → Traced RvmEvent RvmCpu
  | .mov => movTo
  | .add => addTo
  | .sub => subTo
  | .mul => mulTo
  | .div => divideTo (· / ·)
  | .mod => divideTo (· % ·)
  | .shl => shlTo
  | .shr => shrTo
  | .cmp => cmpWith
  | _ => fun cpu _ _ => return cpu

/-- The index of the instruction at a byte address, if there can be one. -/
def indexOf (addr : Word) : Option Nat :=
  if addr.toNat % 2 = 0 then some (addr.toNat / 2) else none

namespace SourceState

/-- The machine before its first step, over a given memory. -/
def start (mem : RvmMemory) : SourceState where
  pc := 0
  rv := fun _ => 0
  rsp := BitVec.ofNat 16 RVM_MEMORY_STACK_END
  flags := 0
  halt := false
  mem := mem

/-- The CPU in this state: rip is twice the index. -/
def cpu (s : SourceState) : RvmCpu :=
  { regs := { rv := s.rv, rip := BitVec.ofNat 16 (2 * s.pc), rsp := s.rsp, rsb := 0,
              flags := s.flags }
    halt := s.halt }

def vm (s : SourceState) : RvmVm := ⟨s.cpu, s.mem⟩

/-- The state after a computation on the CPU, which leaves the index and the memory alone. -/
def withCpu (s : SourceState) (cpu : RvmCpu) : SourceState :=
  { s with rv := cpu.regs.rv, rsp := cpu.regs.rsp, flags := cpu.regs.flags, halt := cpu.halt }

def stop (s : SourceState) : SourceState := { s with halt := true }

def next (s : SourceState) : SourceState := { s with pc := s.pc + 1 }

def setRv (s : SourceState) (r : RvmReg) (v : Word) : SourceState :=
  { s with rv := fun i => if i = r then v else s.rv i }

/-! ## Operands -/

/-- The value of a register or immediate. -/
def value (s : SourceState) : RsmOperand → Word
  | .imm v => v.setWidth 16
  | .reg r => s.rv r
  | _ => 0

/-- The address in the brackets of a memory operand without a label. -/
def address (s : SourceState) : RsmMem → Word
  | .imm v => v.setWidth 16
  | .reg r => s.rv r
  | _ => 0

/-- The index a control-flow operand leads to; none for an odd address in a register. -/
def target? (program : RsmProgram) (s : SourceState) : RsmOperand → Option Nat
  | .label name => (program.address? name).map BitVec.toNat
  | .reg r => indexOf (s.rv r)
  | _ => none

/-! ## Instructions -/

def load (s : SourceState) (rvd : RvmReg) (addr : Word) : SourceState :=
  if addr.toNat % 2 = 0 then s.setRv rvd (s.mem.word addr.toNat) else s.stop

def store (s : SourceState) (addr value : Word) : SourceState :=
  if addr.toNat % 2 = 0 then { s with mem := s.mem.setWord addr.toNat value } else s.stop

def goTo (s : SourceState) (index : Option Nat) : SourceState :=
  match index with
  | some pc => { s with pc := pc }
  | none => s.stop

/-- A call from a state whose index is already at the instruction to return to. -/
def call (s : SourceState) (index : Option Nat) : SourceState :=
  match index with
  | some pc =>
    if RVM_MEMORY_STACK_START + 2 ≤ s.rsp.toNat then
      { s with pc := pc, rsp := s.rsp - 2,
               mem := s.mem.setWord (s.rsp.toNat - 2) (BitVec.ofNat 16 (2 * s.pc)) }
    else s.stop
  | none => s.stop

def ret (s : SourceState) : SourceState :=
  if RVM_MEMORY_STACK_END - 1 < s.rsp.toNat then s.stop
  else { s with rsp := s.rsp + 2 }.goTo (indexOf (s.mem.word s.rsp.toNat))

/-- One instruction, in a state whose index is already at the next one. Operands of a shape that
the parser does not accept change nothing. -/
def exec (program : RsmProgram) (instr : RsmInstr) (s : SourceState) : SourceState :=
  match instr.opcode with
  | .load =>
    match instr.opr1, instr.opr2 with
    | .reg rvd, .mem mem => s.load rvd (s.address mem)
    | _, _ => s
  | .store =>
    match instr.opr1, instr.opr2 with
    | .mem mem, .reg rvs => s.store (s.address mem) (s.rv rvs)
    | _, _ => s
  | .jmp => s.goTo (s.target? program instr.opr1)
  | .jz =>
    if s.cpu.flagCheck RVM_CPU_FLAG_RZ then s.goTo (s.target? program instr.opr1) else s
  | .jnz =>
    if s.cpu.flagCheck RVM_CPU_FLAG_RZ then s else s.goTo (s.target? program instr.opr1)
  | .call => s.call (s.target? program instr.opr1)
  | .ret => s.ret
  | op =>
    match instr.opr1 with
    | .reg rvd => s.withCpu (op.compute s.cpu rvd (s.value instr.opr2)).val
    | _ => s

/-- One step. A machine that has halted, or whose index is past the program, stays as it is. -/
def step (program : RsmProgram) (s : SourceState) : SourceState :=
  if s.halt then s
  else
    match program.instrs.items[s.pc]? with
    | none => s
    | some instr => exec program instr s.next

end SourceState

end RocketVm
