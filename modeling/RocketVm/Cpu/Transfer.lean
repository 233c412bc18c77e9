import RocketVm.Cpu.State

/-!
# Memory and control-flow handlers

`cpu_mem.c` and the jumps, CALL and RET of `cpu_ctrlf.c`.
-/

namespace RocketVm

open Lib

/-! ## LOAD and STORE -/

/-- The check LOAD and STORE make of their address: the text of the fault, if there is one. -/
def accessFault (outOfBounds unaligned : String) (addr : Word) : Option String :=
  if addr.toNat ≥ RVM_MEMORY_SIZE - 1 then some outOfBounds
  else if addr &&& 1 ≠ 0 then some unaligned
  else none

def rvmCpuExecLoad : RvmCpuOpHandler := fun cpu mem instr => do
  let addr := instr.source cpu
  match accessFault "LOAD out of bounds" "LOAD unaligned access" addr with
  | some msg =>
    let cpu ← rvmCpuFault cpu msg addr
    return (cpu, mem)
  | none =>
    let value ← rvmMemoryReadUint16 mem addr
    return (cpu.setRv instr.reg value, mem)

def rvmCpuExecStore : RvmCpuOpHandler := fun cpu mem instr => do
  let addr := instr.source cpu
  match accessFault "STORE out of bounds" "STORE unaligned access" addr with
  | some msg =>
    let cpu ← rvmCpuFault cpu msg addr
    return (cpu, mem)
  | none =>
    let mem ← rvmMemoryWriteUint16 mem addr (cpu.regs.rv instr.reg)
    return (cpu, mem)

/-! ## Jumps -/

/-- The target of a control-flow word: relative to the following instruction with a
sign-extended 11-bit offset, or the value of a register. -/
def transferTarget (cpu : RvmCpu) (instr : RvmInstr) : Word :=
  match RvmMode.ofBit (instr.raw >>> 11) with
  | .immOrAddr =>
    let raw := instr.raw &&& 0x7FF
    let offset := if raw &&& 0x400 ≠ 0 then raw ||| 0xF800 else raw
    cpu.regs.rip + offset
  | .reg => cpu.regs.rv (RvmReg.ofBits instr.raw)

/-- The check JMP, CALL and RET make of their target: the text of the fault, if there is one. -/
def targetFault (outOfBounds unaligned : String) (addr : Word) : Option String :=
  if addr.toNat > RVM_MEMORY_SIZE - RVM_CPU_INSTRUCTION_SIZE then some outOfBounds
  else if addr &&& 1 ≠ 0 then some unaligned
  else none

def rvmCpuExecJmp : RvmCpuOpHandler := fun cpu mem instr => do
  let addr := transferTarget cpu instr
  match targetFault "JMP out of bounds" "JMP unaligned access" addr with
  | some msg =>
    let cpu ← rvmCpuFault cpu msg addr
    return (cpu, mem)
  | none => return (cpu.setRip addr, mem)

def rvmCpuExecJz : RvmCpuOpHandler := fun cpu mem instr =>
  if cpu.flagCheck RVM_CPU_FLAG_RZ then rvmCpuExecJmp cpu mem instr else return (cpu, mem)

def rvmCpuExecJnz : RvmCpuOpHandler := fun cpu mem instr =>
  if !cpu.flagCheck RVM_CPU_FLAG_RZ then rvmCpuExecJmp cpu mem instr else return (cpu, mem)

/-! ## CALL and RET -/

def rvmCpuExecCall : RvmCpuOpHandler := fun cpu mem instr => do
  let addr := transferTarget cpu instr
  match targetFault "CALL out of bounds" "CALL unaligned access" addr with
  | some msg =>
    let cpu ← rvmCpuFault cpu msg addr
    return (cpu, mem)
  | none =>
    if cpu.regs.rsp.toNat < RVM_MEMORY_STACK_START + 2 then
      let cpu ← rvmCpuFault cpu "CALL stack overflow" cpu.regs.rsp
      return (cpu, mem)
    else
      let rsp ← assign16 ((cpu.regs.rsp.toNat : Int) - 2)
      let mem ← rvmMemoryWriteUint16 mem rsp cpu.regs.rip
      return ((cpu.setRsp rsp).setRip addr, mem)

def rvmCpuExecRet : RvmCpuOpHandler := fun cpu mem _ => do
  if cpu.regs.rsp.toNat > RVM_MEMORY_STACK_END - 1 then
    return (cpu.setHalt, mem)
  else
    let addr ← rvmMemoryReadUint16 mem cpu.regs.rsp
    let rsp ← assign16 ((cpu.regs.rsp.toNat : Int) + 2)
    let cpu := cpu.setRsp rsp
    match targetFault "RET out of bounds" "RET unaligned access" addr with
    | some msg =>
      let cpu ← rvmCpuFault cpu msg addr
      return (cpu, mem)
    | none => return (cpu.setRip addr, mem)

end RocketVm
