import RocketVm.Memory

/-!
# The CPU state

`rvm_registers_t`, `rvm_cpu_t`, the FLAGS macros of `cpu.h`, `rvm_cpu_fault` and the operand
fetch that the Format A and B handlers share.
-/

namespace RocketVm

open Lib

def RVM_CPU_INSTRUCTION_SIZE : Nat := 2
def RVM_CPU_OP_COUNT : Nat := 16

def RVM_CPU_FLAG_RZ : Word := 1 <<< 0
def RVM_CPU_FLAG_RN : Word := 1 <<< 1
def RVM_CPU_FLAG_RC : Word := 1 <<< 2
def RVM_CPU_FLAG_RO : Word := 1 <<< 3

/-- `rvm_registers_t`. -/
structure RvmRegisters where
  rv : RvmReg → Word
  rip : Word
  rsp : Word
  rsb : Word
  flags : Word

/-- `rvm_cpu_t`. -/
structure RvmCpu where
  regs : RvmRegisters
  halt : Bool

namespace RvmCpu

def setRv (cpu : RvmCpu) (r : RvmReg) (v : Word) : RvmCpu :=
  { cpu with regs := { cpu.regs with rv := fun i => if i = r then v else cpu.regs.rv i } }

def setRip (cpu : RvmCpu) (v : Word) : RvmCpu := { cpu with regs := { cpu.regs with rip := v } }

def setRsp (cpu : RvmCpu) (v : Word) : RvmCpu := { cpu with regs := { cpu.regs with rsp := v } }

def setFlags (cpu : RvmCpu) (v : Word) : RvmCpu :=
  { cpu with regs := { cpu.regs with flags := v } }

def setHalt (cpu : RvmCpu) : RvmCpu := { cpu with halt := true }

/-- `RVM_CPU_FLAG_SET`. -/
def flagSet (cpu : RvmCpu) (flag : Word) : RvmCpu := cpu.setFlags (cpu.regs.flags ||| flag)

/-- `RVM_CPU_FLAG_CLEAR`. -/
def flagClear (cpu : RvmCpu) (flag : Word) : RvmCpu := cpu.setFlags (cpu.regs.flags &&& ~~~flag)

/-- `RVM_CPU_FLAG_CHECK`. -/
def flagCheck (cpu : RvmCpu) (flag : Word) : Bool := cpu.regs.flags &&& flag != 0

/-- `if (c) { RVM_CPU_FLAG_SET(cpu, flag); }`. -/
def flagSetIf (cpu : RvmCpu) (c : Bool) (flag : Word) : RvmCpu :=
  if c then cpu.flagSet flag else cpu

end RvmCpu

def rvmCpuFault (cpu : RvmCpu) (msg : String) (addr : Word) : Traced RvmEvent RvmCpu := do
  Traced.emit (.fault msg addr)
  return cpu.setHalt

/-- The value of the source operand: the zero-extended immediate, or the register that the three
low bits of the operand name. -/
def RvmInstr.source (instr : RvmInstr) (cpu : RvmCpu) : Word :=
  match instr.mode with
  | .immOrAddr => instr.operand.setWidth 16
  | .reg => cpu.regs.rv (RvmReg.ofBits (instr.operand.setWidth 16))

/-- The sum or difference that `+=` and `-=` store into a 16-bit register. -/
def assign16 (exact : Int) : Traced RvmEvent Word := do
  Traced.emit (.assign16 exact)
  return BitVec.ofInt 16 exact

/-- `rvm_cpu_op_handler_t`. -/
abbrev RvmCpuOpHandler := RvmCpu → RvmMemory → RvmInstr → Traced RvmEvent (RvmCpu × RvmMemory)

/-! ## The state after an update -/

namespace RvmCpu

variable (cpu : RvmCpu) (r : RvmReg) (v : Word)

@[simp] theorem setRv_rip : (cpu.setRv r v).regs.rip = cpu.regs.rip := rfl
@[simp] theorem setRv_rsp : (cpu.setRv r v).regs.rsp = cpu.regs.rsp := rfl
@[simp] theorem setRv_rsb : (cpu.setRv r v).regs.rsb = cpu.regs.rsb := rfl
@[simp] theorem setRv_flags : (cpu.setRv r v).regs.flags = cpu.regs.flags := rfl
@[simp] theorem setRv_halt : (cpu.setRv r v).halt = cpu.halt := rfl

@[simp] theorem setRip_rv : (cpu.setRip v).regs.rv = cpu.regs.rv := rfl
@[simp] theorem setRip_rip : (cpu.setRip v).regs.rip = v := rfl
@[simp] theorem setRip_rsp : (cpu.setRip v).regs.rsp = cpu.regs.rsp := rfl
@[simp] theorem setRip_rsb : (cpu.setRip v).regs.rsb = cpu.regs.rsb := rfl
@[simp] theorem setRip_flags : (cpu.setRip v).regs.flags = cpu.regs.flags := rfl
@[simp] theorem setRip_halt : (cpu.setRip v).halt = cpu.halt := rfl

@[simp] theorem setRsp_rv : (cpu.setRsp v).regs.rv = cpu.regs.rv := rfl
@[simp] theorem setRsp_rip : (cpu.setRsp v).regs.rip = cpu.regs.rip := rfl
@[simp] theorem setRsp_rsp : (cpu.setRsp v).regs.rsp = v := rfl
@[simp] theorem setRsp_rsb : (cpu.setRsp v).regs.rsb = cpu.regs.rsb := rfl
@[simp] theorem setRsp_flags : (cpu.setRsp v).regs.flags = cpu.regs.flags := rfl
@[simp] theorem setRsp_halt : (cpu.setRsp v).halt = cpu.halt := rfl

@[simp] theorem setHalt_regs : cpu.setHalt.regs = cpu.regs := rfl
@[simp] theorem setHalt_halt : cpu.setHalt.halt = true := rfl

end RvmCpu

@[simp] theorem rvmCpuFault_val (cpu : RvmCpu) (msg : String) (addr : Word) :
    (rvmCpuFault cpu msg addr).val = cpu.setHalt := rfl

@[simp] theorem rvmCpuFault_events (cpu : RvmCpu) (msg : String) (addr : Word) :
    (rvmCpuFault cpu msg addr).events = [.fault msg addr] := rfl

@[simp] theorem assign16_val (exact : Int) : (assign16 exact).val = BitVec.ofInt 16 exact := rfl

@[simp] theorem assign16_events (exact : Int) :
    (assign16 exact).events = [.assign16 exact] := rfl

end RocketVm
