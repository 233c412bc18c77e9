import RocketVm.Cpu.Alu
import RocketVm.Cpu.Transfer

/-!
# Fetch, decode, execute

`cpu.c`: the handler table, `rvm_cpu_execute` and `rvm_cpu_cycle`. A C return code is an `Int`.
-/

namespace RocketVm

open Lib

/-- `rvm_op_handlers`: the handler an opcode is initialized with. -/
def RvmOpcode.handler : RvmOpcode → RvmCpuOpHandler
  | .mov => rvmCpuExecMov
  | .load => rvmCpuExecLoad
  | .store => rvmCpuExecStore
  | .add => rvmCpuExecAdd
  | .sub => rvmCpuExecSub
  | .mul => rvmCpuExecMul
  | .div => rvmCpuExecDiv
  | .mod => rvmCpuExecMod
  | .shl => rvmCpuExecShl
  | .shr => rvmCpuExecShr
  | .cmp => rvmCpuExecCmp
  | .jmp => rvmCpuExecJmp
  | .jnz => rvmCpuExecJnz
  | .jz => rvmCpuExecJz
  | .call => rvmCpuExecCall
  | .ret => rvmCpuExecRet

/-- The table entry at an index: null where no initializer names it. -/
def rvmOpHandlers (opcode : Nat) : Option RvmCpuOpHandler :=
  (RvmOpcode.ofCode? opcode).map RvmOpcode.handler

def rvmCpuExecute (cpu : RvmCpu) (mem : RvmMemory) (instr : RvmInstr) :
    Traced RvmEvent (Int × RvmCpu × RvmMemory) := do
  if instr.opcode ≥ RVM_CPU_OP_COUNT then
    let cpu ← rvmCpuFault cpu "Opcode out of range" (BitVec.ofNat 16 instr.opcode)
    return (-1, cpu, mem)
  match rvmOpHandlers instr.opcode with
  | none =>
    let cpu ← rvmCpuFault cpu "Invalid Opcode" (BitVec.ofNat 16 instr.opcode)
    return (-1, cpu, mem)
  | some handler =>
    let after ← handler cpu mem instr
    return (0, after)

def rvmCpuCycle (cpu : RvmCpu) (mem : RvmMemory) :
    Traced RvmEvent (Int × RvmCpu × RvmMemory) := do
  if cpu.halt then
    return (0, cpu, mem)
  let rip := cpu.regs.rip
  if rip.toNat > RVM_MEMORY_PROGRAM_END - 2 then
    Traced.emit (.fault "rvm_cpu_cycle RIP out of bounds" rip)
    return (-1, cpu, mem)
  let instrBin ← rvmMemoryReadUint16 mem rip
  let instr := rvmDecode instrBin
  let next ← assign16 (cpu.regs.rip.toNat + RVM_CPU_INSTRUCTION_SIZE)
  let (ret, after) ← rvmCpuExecute (cpu.setRip next) mem instr
  if ret = -1 then
    Traced.emit (.error "rvm_cpu_execute failed")
    return (-1, after)
  return (0, after)

end RocketVm
