import RocketVm.Cpu.Cycle
import RocketVm.Lib.Machine

/-!
# The virtual machine

`vm.c` and the file reader of `common/utility/io.c`, and the machine whose step is one call of
`rvm_cpu_cycle`.
-/

namespace RocketVm

open Lib

/-- `rvm_vm_t`. -/
structure RvmVm where
  cpu : RvmCpu
  mem : RvmMemory

/-! ## Reading a file -/

/-- A file as `rvm_io_read_file` finds it: its bytes, and which of the library calls succeed. -/
structure RvmFile where
  content : List Byte
  fopen : Bool := true
  seekEnd : Bool := true
  ftell : Bool := true
  seekSet : Bool := true
  malloc : Bool := true
  fread : Bool := true

/-- The bytes of the file, or nothing where the C function returns NULL. The NUL that follows
the bytes in the C buffer is not part of the size the function reports. -/
def rvmIoReadFile (file : RvmFile) : Option (List Byte) :=
  if !file.fopen then none
  else if !file.seekEnd then none
  else if !file.ftell then none
  else if file.content.length = 0 then none
  else if !file.seekSet then none
  else if !file.malloc then none
  else if !file.fread then none
  else some file.content

/-! ## Creating and loading -/

/-- The state `rvm_vm_create` leaves in the block it allocates. -/
def freshVm : RvmVm where
  cpu :=
    { regs := { rv := fun _ => 0, rip := 0, rsp := BitVec.ofNat 16 RVM_MEMORY_STACK_END,
                rsb := 0, flags := 0 }
      halt := false }
  mem := { data := fun _ => 0 }

def rvmVmCreate (malloc : Bool) : Option RvmVm := if malloc then some freshVm else none

/-- `memcpy` of an image to the start of the program region. -/
def RvmMemory.copy (mem : RvmMemory) (image : List Byte) : RvmMemory where
  data i :=
    if RVM_MEMORY_PROGRAM_START ≤ i.val ∧ i.val < RVM_MEMORY_PROGRAM_START + image.length then
      image.getD (i.val - RVM_MEMORY_PROGRAM_START) 0
    else mem.data i

def rvmVmLoad (vm : RvmVm) (file : RvmFile) : Int × RvmVm :=
  match rvmIoReadFile file with
  | none => (-1, vm)
  | some rvm =>
    if rvm.length > RVM_MEMORY_SIZE - RVM_MEMORY_PROGRAM_START then (-1, vm)
    else (0, { vm with mem := vm.mem.copy rvm })

/-! ## Cycles -/

/-- One call of `rvm_cpu_cycle` on the machine: its return code and the state it leaves. -/
def RvmVm.cycle (vm : RvmVm) : Traced RvmEvent (Int × RvmVm) := do
  let (ret, cpu, mem) ← rvmCpuCycle vm.cpu vm.mem
  return (ret, ⟨cpu, mem⟩)

/-- The state one call of `rvm_cpu_cycle` leaves, with what it did on the way. -/
def RvmVm.step (vm : RvmVm) : Traced RvmEvent RvmVm := do
  let (_, after) ← vm.cycle
  return after

/-- The state after `k` calls of `rvm_cpu_cycle`. -/
def RvmVm.after (k : Nat) (vm : RvmVm) : RvmVm := run RvmVm.step k vm

/-- The instruction the next cycle executes, if it fetches one. -/
def RvmVm.pending (vm : RvmVm) : Option RvmInstr :=
  if vm.cpu.halt = true ∨ vm.cpu.regs.rip.toNat > RVM_MEMORY_PROGRAM_END - 2 then none
  else some (rvmDecode (vm.mem.word vm.cpu.regs.rip.toNat))

/-- The opcode of that instruction. -/
def RvmVm.pendingOpcode (vm : RvmVm) : Option RvmOpcode :=
  vm.pending.bind fun instr => RvmOpcode.ofCode? instr.opcode

/-! ## Running -/

/-- `rvm_vm_run`, its loop cut off after a number of iterations: nothing where the loop is still
going. The value is the return code and the machine. -/
def rvmVmRun : Nat → RvmVm → Traced RvmEvent (Option (Int × RvmVm))
  | 0, _ => return none
  | fuel + 1, vm => do
    if vm.cpu.halt then
      return some (0, vm)
    let (ret, vm) ← vm.cycle
    if ret = -1 then
      Traced.emit (.error "rvm_cpu_cycle failed")
      return some (-1, vm)
    rvmVmRun fuel vm

/-- The machine right after a successful load of a file into a fresh VM. -/
def Loads (file : RvmFile) (vm : RvmVm) : Prop := rvmVmLoad freshVm file = (0, vm)

end RocketVm
