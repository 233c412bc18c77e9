import RocketVm.Cpu.State

/-!
# Arithmetic handlers

`cpu_alu.c`, with `rvm_cpu_exec_mov` of `cpu_data.c` and `rvm_cpu_exec_cmp` of `cpu_ctrlf.c`:
the handlers that compute on a destination register and a source value and leave memory alone.
Each handler is `execOnSource` applied to what it computes.

C evaluates `+`, `-`, `*` and `<<` on `uint16_t` operands in `int` and converts the outcome to
`uint32_t`; the exact value is an event of the trace (`intResult`).
-/

namespace RocketVm

open Lib

/-- A handler that reads its source operand and computes on the CPU alone. -/
def execOnSource (op : RvmCpu → RvmReg → Word → Traced RvmEvent RvmCpu) : RvmCpuOpHandler :=
  fun cpu mem instr => do
    let cpu ← op cpu instr.reg (instr.source cpu)
    return (cpu, mem)

/-- An `int` value converted to `uint32_t`. -/
def intResult (value : Int) : Traced RvmEvent (BitVec 32) := do
  Traced.emit (.int value)
  return BitVec.ofInt 32 value

/-- `(uint16_t)result`. -/
def low16 (result : BitVec 32) : Word := result.setWidth 16

/-- The updates of RZ and RN that every arithmetic handler makes from its result. -/
def RvmCpu.setZeroNegative (cpu : RvmCpu) (result : BitVec 32) : RvmCpu :=
  (cpu.flagSetIf (result &&& 0xFFFF == 0) RVM_CPU_FLAG_RZ).flagSetIf
    (low16 result &&& 0x8000 != 0) RVM_CPU_FLAG_RN

/-- All four flags. -/
def flagsAll : Word := RVM_CPU_FLAG_RZ ||| RVM_CPU_FLAG_RN ||| RVM_CPU_FLAG_RC ||| RVM_CPU_FLAG_RO

/-! ## MOV -/

def movTo (cpu : RvmCpu) (rvd : RvmReg) (src : Word) : Traced RvmEvent RvmCpu :=
  return cpu.setRv rvd src

def rvmCpuExecMov : RvmCpuOpHandler := execOnSource movTo

/-! ## ADD, SUB and CMP -/

def addTo (cpu : RvmCpu) (rvd : RvmReg) (src : Word) : Traced RvmEvent RvmCpu := do
  let dst := cpu.regs.rv rvd
  let result ← intResult (dst.toNat + src.toNat)
  let cpu := cpu.flagClear flagsAll
  let cpu := cpu.setZeroNegative result
  let cpu := cpu.flagSetIf (decide (result > 0xFFFF)) RVM_CPU_FLAG_RC
  let overflow := (dst ^^^ low16 result) &&& (src ^^^ low16 result) &&& 0x8000 != 0
  let cpu := cpu.flagSetIf overflow RVM_CPU_FLAG_RO
  return cpu.setRv rvd (low16 result)

def rvmCpuExecAdd : RvmCpuOpHandler := execOnSource addTo

/-- What SUB and CMP share: the flags of `dst - src`, and the difference. -/
def subtract (cpu : RvmCpu) (dst src : Word) : Traced RvmEvent (RvmCpu × BitVec 32) := do
  let result ← intResult ((dst.toNat : Int) - src.toNat)
  let borrow := decide (dst < src)
  let cpu := cpu.flagClear flagsAll
  let cpu := cpu.setZeroNegative result
  let cpu := cpu.flagSetIf borrow RVM_CPU_FLAG_RC
  let overflow := (dst ^^^ src) &&& (dst ^^^ low16 result) &&& 0x8000 != 0
  let cpu := cpu.flagSetIf overflow RVM_CPU_FLAG_RO
  return (cpu, result)

def subTo (cpu : RvmCpu) (rvd : RvmReg) (src : Word) : Traced RvmEvent RvmCpu := do
  let (cpu, result) ← subtract cpu (cpu.regs.rv rvd) src
  return cpu.setRv rvd (low16 result)

def rvmCpuExecSub : RvmCpuOpHandler := execOnSource subTo

def cmpWith (cpu : RvmCpu) (rvd : RvmReg) (src : Word) : Traced RvmEvent RvmCpu := do
  let (cpu, _) ← subtract cpu (cpu.regs.rv rvd) src
  return cpu

def rvmCpuExecCmp : RvmCpuOpHandler := execOnSource cmpWith

/-! ## MUL -/

def mulTo (cpu : RvmCpu) (rvd : RvmReg) (src : Word) : Traced RvmEvent RvmCpu := do
  let result ← intResult ((cpu.regs.rv rvd).toNat * src.toNat)
  let cpu := cpu.flagClear flagsAll
  let cpu := cpu.setZeroNegative result
  let cpu := cpu.flagSetIf (decide (result > 0xFFFF)) RVM_CPU_FLAG_RC
  let cpu := cpu.flagSetIf (decide (result > 0xFFFF)) RVM_CPU_FLAG_RO
  return cpu.setRv rvd (low16 result)

def rvmCpuExecMul : RvmCpuOpHandler := execOnSource mulTo

/-! ## DIV and MOD -/

/-- What DIV and MOD share: they differ in the operator alone. -/
def divideTo (operator : Nat → Nat → Nat) (cpu : RvmCpu) (rvd : RvmReg) (src : Word) :
    Traced RvmEvent RvmCpu := do
  if src = 0 then
    Traced.emit (.error "rvm_cpu_execute division by 0 error")
    return cpu.setHalt
  Traced.emit (.divide src)
  let result := BitVec.ofNat 32 (operator (cpu.regs.rv rvd).toNat src.toNat)
  let cpu := cpu.flagClear (RVM_CPU_FLAG_RZ ||| RVM_CPU_FLAG_RN)
  let cpu := cpu.setZeroNegative result
  return cpu.setRv rvd (low16 result)

def rvmCpuExecDiv : RvmCpuOpHandler := execOnSource (divideTo (· / ·))

def rvmCpuExecMod : RvmCpuOpHandler := execOnSource (divideTo (· % ·))

/-! ## SHL and SHR -/

/-- `dst >> count`, the count recorded. -/
def shiftRight (dst : Word) (count : Nat) : Traced RvmEvent Word := do
  Traced.emit (.shift count)
  return dst >>> count

def shlTo (cpu : RvmCpu) (rvd : RvmReg) (src : Word) : Traced RvmEvent RvmCpu := do
  let dst := cpu.regs.rv rvd
  let shift := (src &&& 0xF).toNat
  -- the early return leaves every flag as it was
  if shift = 0 then
    return cpu
  let cpu := cpu.flagClear flagsAll
  Traced.emit (.shift shift)
  let shifted ← intResult (dst.toNat * 2 ^ shift)
  let result := shifted &&& 0xFFFF
  let cpu := cpu.setZeroNegative result
  Traced.emit (.int (16 - shift))
  let bit ← shiftRight dst (16 - shift)
  let cpu := cpu.flagSetIf (bit &&& 1 != 0) RVM_CPU_FLAG_RC
  let cpu := cpu.flagSetIf (shift == 1 && (dst ^^^ low16 result) &&& 0x8000 != 0) RVM_CPU_FLAG_RO
  return cpu.setRv rvd (low16 result)

def rvmCpuExecShl : RvmCpuOpHandler := execOnSource shlTo

def shrTo (cpu : RvmCpu) (rvd : RvmReg) (src : Word) : Traced RvmEvent RvmCpu := do
  let dst := cpu.regs.rv rvd
  let shift := (src &&& 0xF).toNat
  let shifted ← shiftRight dst shift
  let result : BitVec 32 := shifted.setWidth 32
  let cpu := cpu.flagClear (RVM_CPU_FLAG_RZ ||| RVM_CPU_FLAG_RN ||| RVM_CPU_FLAG_RC)
  let cpu := cpu.setZeroNegative result
  if shift = 0 then
    return cpu.setRv rvd (low16 result)
  Traced.emit (.int ((shift : Int) - 1))
  let bit ← shiftRight dst (shift - 1)
  let cpu := cpu.flagSetIf (bit &&& 1 != 0) RVM_CPU_FLAG_RC
  return cpu.setRv rvd (low16 result)

def rvmCpuExecShr : RvmCpuOpHandler := execOnSource shrTo

end RocketVm
