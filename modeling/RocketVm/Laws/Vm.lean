import RocketVm.Vm
import RocketVm.Laws.Cpu

/-!
# Cycles

`CycleCase` lists what one call of `rvm_cpu_cycle` can do, and `RvmVm.cycle_cases` is the inversion:
a halted machine stays as it is, a machine whose rip has left the program region reports it, and
every other machine fetches and ends in an `Outcome` of the instruction. The laws about runs are
case analyses of `CycleCase`.
-/

namespace RocketVm

open Lib

/-! ## One cycle -/

/-- The CPU when the instruction at rip executes: rip is already at the next one. -/
def RvmVm.fetched (vm : RvmVm) : RvmCpu := vm.cpu.setRip (vm.cpu.regs.rip + 2)

/-- What one call of `rvm_cpu_cycle` does: its return code, the state it leaves, its trace. -/
inductive CycleCase (vm : RvmVm) : Int → RvmVm → List RvmEvent → Prop
  | halted (halt : vm.cpu.halt = true) : CycleCase vm 0 vm []
  | ripOutOfBounds (running : vm.cpu.halt = false) (out : 0x7FFD < vm.cpu.regs.rip.toNat) :
      CycleCase vm (-1) vm [.fault "rvm_cpu_cycle RIP out of bounds" vm.cpu.regs.rip]
  | executed {instr op cpu' mem' events} (pending : vm.pending = some instr)
      (opcode : vm.pendingOpcode = some op)
      (outcome : Outcome vm.fetched vm.mem instr op (cpu', mem') events) :
      CycleCase vm 0 ⟨cpu', mem'⟩
        (.read vm.cpu.regs.rip :: .assign16 ((vm.cpu.regs.rip.toNat : Int) + 2) :: events)

theorem rvmCpuExecute_eq {op : RvmOpcode} (cpu : RvmCpu) (mem : RvmMemory) {instr : RvmInstr}
    (h : instr.opcode = op.code) :
    rvmCpuExecute cpu mem instr =
      ⟨(0, (op.handler cpu mem instr).val), (op.handler cpu mem instr).events⟩ := by
  have inRange : ¬ instr.opcode ≥ RVM_CPU_OP_COUNT := by
    rw [h]
    exact Nat.not_le.mpr op.code_lt
  have entry : rvmOpHandlers instr.opcode = some op.handler := by
    rw [h, rvmOpHandlers, op.ofCode?_code, Option.map_some]
  simp only [rvmCpuExecute, inRange, ↓reduceIte, entry]
  exact Traced.ext_iff.mpr ⟨rfl, List.append_nil _⟩

/-- The table has a handler for every decoded word, so `rvm_cpu_execute` never fails. -/
theorem rvmCpuExecute_decoded (cpu : RvmCpu) (mem : RvmMemory) (w : Word) :
    (rvmCpuExecute cpu mem (rvmDecode w)).val.1 = 0 := by
  obtain ⟨op, hop⟩ := rvmDecode_opcode_code w
  rw [rvmCpuExecute_eq cpu mem hop]

namespace RvmVm

variable {vm : RvmVm} {instr : RvmInstr} {op : RvmOpcode}

theorem pending_eq_some : vm.pending = some instr ↔ vm.cpu.halt = false ∧
    vm.cpu.regs.rip.toNat ≤ 0x7FFD ∧ rvmDecode (vm.mem.word vm.cpu.regs.rip.toNat) = instr := by
  unfold pending RVM_MEMORY_PROGRAM_END
  split
  · next h =>
    refine iff_of_false (by simp) fun ⟨running, inside, _⟩ => ?_
    rcases h with h | h
    · exact absurd (h.symm.trans running) (by decide)
    · omega
  · next h =>
    have inside : ¬ vm.cpu.regs.rip.toNat > 0x7FFF - 2 := fun h' => h (.inr h')
    have running : vm.cpu.halt = false := Bool.eq_false_iff.mpr fun h' => h (.inl h')
    simp only [Option.some.injEq]
    exact ⟨fun e => ⟨running, by omega, e⟩, fun e => e.2.2⟩

theorem pendingOpcode_of_halt (halt : vm.cpu.halt = true) : vm.pendingOpcode = none := by
  simp only [pendingOpcode, pending, halt, true_or, ↓reduceIte, Option.bind_none]

theorem pendingOpcode_of_out (out : 0x7FFD < vm.cpu.regs.rip.toNat) :
    vm.pendingOpcode = none := by
  have out' : vm.cpu.regs.rip.toNat > RVM_MEMORY_PROGRAM_END - 2 := out
  simp only [pendingOpcode, pending, out', or_true, ↓reduceIte, Option.bind_none]

theorem pendingOpcode_of_pending (h : vm.pending = some instr) (hop : instr.opcode = op.code) :
    vm.pendingOpcode = some op := by
  rw [pendingOpcode, h, Option.bind_some, hop, op.ofCode?_code]

/-- The opcode field of the instruction that is executed next. -/
theorem pending_code (pending : vm.pending = some instr) (opcode : vm.pendingOpcode = some op) :
    instr.opcode = op.code := by
  obtain ⟨_, _, decoded⟩ := pending_eq_some.mp pending
  obtain ⟨op', hop⟩ := rvmDecode_opcode_code (vm.mem.word vm.cpu.regs.rip.toNat)
  rw [decoded] at hop
  cases (pendingOpcode_of_pending pending hop).symm.trans opcode
  exact hop

/-- A cycle that fetches: the fetch, the increment of rip, then the handler. -/
theorem cycle_of_pending (h : vm.pending = some instr) (hop : instr.opcode = op.code) :
    vm.cycle = ⟨(0, ⟨(op.handler vm.fetched vm.mem instr).val.1,
        (op.handler vm.fetched vm.mem instr).val.2⟩),
      .read vm.cpu.regs.rip :: .assign16 ((vm.cpu.regs.rip.toNat : Int) + 2) ::
        (op.handler vm.fetched vm.mem instr).events⟩ := by
  obtain ⟨running, inside, decoded⟩ := pending_eq_some.mp h
  have inside' : ¬ vm.cpu.regs.rip.toNat > RVM_MEMORY_PROGRAM_END - 2 := by
    unfold RVM_MEMORY_PROGRAM_END
    omega
  have next : (assign16 (vm.cpu.regs.rip.toNat + RVM_CPU_INSTRUCTION_SIZE)).val =
      vm.cpu.regs.rip + 2 := ofInt_add_two _
  have succeeded : ¬ (0 : Int) = -1 := by decide
  simp only [cycle, rvmCpuCycle, running, Bool.false_eq_true, ↓reduceIte, inside', Traced.ext_iff,
    Traced.val_bind, Traced.events_bind, rvmMemoryReadUint16_val, rvmMemoryReadUint16_events,
    decoded, next, rvmCpuExecute_eq (vm.cpu.setRip (vm.cpu.regs.rip + 2)) vm.mem hop, succeeded,
    Traced.val_pure, Traced.events_pure, List.append_nil]
  exact ⟨rfl, rfl⟩

/-- The state after a cycle, by the handler of the opcode it executes. -/
theorem cycle_val (pending : vm.pending = some instr) (opcode : vm.pendingOpcode = some op) :
    vm.cycle.val.2 = ⟨(op.handler vm.fetched vm.mem instr).val.1,
      (op.handler vm.fetched vm.mem instr).val.2⟩ := by
  rw [cycle_of_pending pending (pending_code pending opcode)]

/-- **The inversion of a cycle.** -/
theorem cycle_cases (vm : RvmVm) :
    CycleCase vm vm.cycle.val.1 vm.cycle.val.2 vm.cycle.events := by
  cases running : vm.cpu.halt with
  | true =>
    have : vm.cycle = ⟨(0, vm), []⟩ := by
      simp only [cycle, rvmCpuCycle, running, ↓reduceIte]
      rfl
    rw [this]
    exact .halted running
  | false =>
    by_cases out : 0x7FFD < vm.cpu.regs.rip.toNat
    · have : vm.cycle =
          ⟨(-1, vm), [.fault "rvm_cpu_cycle RIP out of bounds" vm.cpu.regs.rip]⟩ := by
        have out' : vm.cpu.regs.rip.toNat > RVM_MEMORY_PROGRAM_END - 2 := out
        simp only [cycle, rvmCpuCycle, running, Bool.false_eq_true, ↓reduceIte, out']
        rfl
      rw [this]
      exact .ripOutOfBounds running out
    · have pending := pending_eq_some.mpr ⟨running, Nat.not_lt.mp out, rfl⟩
      obtain ⟨op, hop⟩ := rvmDecode_opcode_code (vm.mem.word vm.cpu.regs.rip.toNat)
      rw [cycle_of_pending pending hop]
      exact .executed pending (pendingOpcode_of_pending pending hop)
        (handler_outcome vm.fetched vm.mem _ op)

theorem after_zero (vm : RvmVm) : vm.after 0 = vm := rfl

theorem after_succ (k : Nat) (vm : RvmVm) : vm.after (k + 1) = (vm.after k).cycle.val.2 :=
  run_succ RvmVm.step k vm

end RvmVm

end RocketVm
