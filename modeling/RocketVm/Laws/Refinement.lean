import RocketVm.Source
import RocketVm.Laws.Image
import RocketVm.Laws.Numbers
import RocketVm.Laws.Stack

/-!
# The assembler and the machine refine the source

Every state the machine reaches with the image of a program is the state the source-level machine
reaches in as many steps, as long as the machine fetches and stores where the program expects it.
The step is one lemma for each shape of instruction; the run is `run_simulates`.
-/

namespace RocketVm

open Lib

/-! ## Operands -/

theorem RvmReg.ofBits_toByte (r : RvmReg) : RvmReg.ofBits ((RvmReg.toByte r).setWidth 16) = r := by
  have := r.isLt
  refine Fin.ext ?_
  rw [RvmReg.ofBits_val, BitVec.toNat_setWidth, RvmReg.toByte_toNat]
  omega

/-- The source operand of a word with a number that fits its byte. -/
theorem source_imm (op : RvmOpcode) (r : RvmReg) {v : SInt32} (fits : 0 ≤ v.toInt ∧ v.toInt ≤ 255)
    (cpu : RvmCpu) :
    (rvmDecode (rvmEncode op r .immOrAddr (v.setWidth 8))).source cpu = v.setWidth 16 := by
  have signed := BitVec.toInt_eq_toNat_cond v
  rw [rvmDecode_rvmEncode]
  refine BitVec.eq_of_toNat_eq ?_
  show ((v.setWidth 8).setWidth 16).toNat = _
  simp only [BitVec.toNat_setWidth]
  split at signed <;> omega

theorem source_reg (op : RvmOpcode) (r r' : RvmReg) (cpu : RvmCpu) :
    (rvmDecode (rvmEncode op r .reg (RvmReg.toByte r'))).source cpu = cpu.regs.rv r' := by
  rw [rvmDecode_rvmEncode]
  exact congrArg cpu.regs.rv (RvmReg.ofBits_toByte r')

/-! ## Computations -/

/-- A computation leaves rip and rsb alone. -/
theorem compute_keeps (op : RvmOpcode) (cpu : RvmCpu) (rvd : RvmReg) (src : Word) :
    (op.compute cpu rvd src).val.regs.rip = cpu.regs.rip ∧
      (op.compute cpu rvd src).val.regs.rsb = cpu.regs.rsb := by
  have of_computes : ∀ {m : Word} {cpu' : RvmCpu}, Computes m rvd cpu cpu' →
      cpu'.regs.rip = cpu.regs.rip ∧ cpu'.regs.rsb = cpu.regs.rsb := by
    intro m cpu' computes
    exact ⟨computes.rip, computes.rsb⟩
  have of_divide : ∀ operator, (divideTo operator cpu rvd src).val.regs.rip = cpu.regs.rip ∧
      (divideTo operator cpu rvd src).val.regs.rsb = cpu.regs.rsb := by
    intro operator
    by_cases zero : src = 0
    · simp only [divideTo, zero, ↓reduceIte]
      exact ⟨rfl, rfl⟩
    · exact of_computes (divideTo_computes operator cpu rvd zero)
  cases op with
  | mov => exact of_computes (movTo_computes cpu rvd src)
  | add => exact of_computes (addTo_computes cpu rvd src)
  | sub => exact of_computes (subTo_computes cpu rvd src)
  | mul => exact of_computes (mulTo_computes cpu rvd src)
  | div | mod => exact of_divide _
  | shl => exact of_computes (shlTo_computes cpu rvd src)
  | shr => exact of_computes (shrTo_computes cpu rvd src)
  | cmp => exact ⟨(cmpWith_flagsOnly cpu rvd src).rip, (cmpWith_flagsOnly cpu rvd src).rsb⟩
  | _ => exact ⟨rfl, rfl⟩

/-- The handler of an opcode with a source operand is its computation. -/
theorem handler_compute {op : RvmOpcode} (takes : op.takesSource = true) (cpu : RvmCpu)
    (mem : RvmMemory) (instr : RvmInstr) :
    (op.handler cpu mem instr).val = ((op.compute cpu instr.reg (instr.source cpu)).val, mem) := by
  cases op <;> first | rfl | cases takes

namespace SourceState

theorem withCpu_cpu (s : SourceState) {cpu : RvmCpu} (rip : cpu.regs.rip = s.cpu.regs.rip)
    (rsb : cpu.regs.rsb = 0) : (s.withCpu cpu).cpu = cpu := by
  obtain ⟨⟨rv, rip', rsp, rsb', flags⟩, halt⟩ := cpu
  cases rip
  cases rsb
  rfl

/-! ## Targets -/

/-- An address with an index is even, and twice the index. -/
theorem indexOf_some {addr : Word} {i : Nat} (h : indexOf addr = some i) :
    addr.toNat % 2 = 0 ∧ i < 0x8000 ∧ BitVec.ofNat 16 (2 * i) = addr := by
  have := addr.isLt
  unfold indexOf at h
  split at h
  · next even =>
    cases h
    refine ⟨even, by omega, BitVec.eq_of_toNat_eq ?_⟩
    rw [BitVec.toNat_ofNat]
    omega
  · cases h

theorem indexOf_none {addr : Word} (h : indexOf addr = none) : addr.toNat % 2 ≠ 0 := by
  unfold indexOf at h
  split at h
  · cases h
  · assumption

theorem indexOf_double {n : Nat} {addr : Word} (double : addr.toNat = 2 * n) :
    indexOf addr = some n := by
  unfold indexOf
  rw [if_pos (by omega), double]
  exact congrArg some (by omega)

/-- Going to the index of an address is jumping to the address. -/
theorem goTo_cpu (s : SourceState) (addr : Word) :
    (s.goTo (indexOf addr)).cpu = s.cpu.jumpTo addr ∧ (s.goTo (indexOf addr)).mem = s.mem := by
  unfold RvmCpu.jumpTo
  cases h : indexOf addr with
  | none =>
    rw [if_neg (indexOf_none h)]
    exact ⟨rfl, rfl⟩
  | some i =>
    obtain ⟨even, _, back⟩ := indexOf_some h
    rw [if_pos even, ← back]
    exact ⟨rfl, rfl⟩

theorem goTo_pc {s : SourceState} {addr : Word} (pc : s.pc < 0x8000) :
    (s.goTo (indexOf addr)).pc < 0x8000 := by
  cases h : indexOf addr with
  | none => exact pc
  | some i => exact (indexOf_some h).2.1

/-- Calling the index of an address is the CALL to the address. -/
theorem call_matches {s : SourceState} (pc : s.pc < 0x8000) (addr : Word) :
    ((s.call (indexOf addr)).cpu, (s.call (indexOf addr)).mem) =
      (if addr.toNat % 2 = 0 ∧ 0xF002 ≤ s.rsp.toNat then
        ((s.cpu.setRsp (s.rsp - 2)).setRip addr, s.mem.setWord (s.rsp.toNat - 2) s.cpu.regs.rip)
      else (s.cpu.setHalt, s.mem)) ∧ (s.call (indexOf addr)).pc < 0x8000 := by
  cases h : indexOf addr with
  | none =>
    rw [if_neg fun even => indexOf_none h even.1]
    exact ⟨rfl, pc⟩
  | some i =>
    obtain ⟨even, bound, back⟩ := indexOf_some h
    unfold call
    dsimp only
    by_cases room : RVM_MEMORY_STACK_START + 2 ≤ s.rsp.toNat
    · rw [if_pos room, if_pos ⟨even, room⟩, ← back]
      exact ⟨rfl, bound⟩
    · rw [if_neg room, if_neg fun both => room both.2]
      exact ⟨rfl, pc⟩

/-- A control-flow instruction whose target is that of the word does what the word does. -/
theorem transfer_matches {program : RsmProgram} {op : RvmOpcode} (transfers : op.transfers = true)
    {opr1 opr2 : RsmOperand} {s : SourceState} {decoded : RvmInstr} (pc : s.pc < 0x8000)
    (target : s.target? program opr1 = indexOf (transferTarget s.cpu decoded)) :
    (op.handler s.cpu s.mem decoded).val =
        ((exec program ⟨op, opr1, opr2⟩ s).cpu, (exec program ⟨op, opr1, opr2⟩ s).mem) ∧
      (exec program ⟨op, opr1, opr2⟩ s).pc < 0x8000 := by
  have went := s.goTo_cpu (transferTarget s.cpu decoded)
  have jump : op = .jmp ∨ op = .jz ∨ op = .jnz →
      exec program ⟨op, opr1, opr2⟩ s =
        (if op.branches s.cpu = true then s.goTo (indexOf (transferTarget s.cpu decoded)) else s) →
      (op.handler s.cpu s.mem decoded).val =
        ((exec program ⟨op, opr1, opr2⟩ s).cpu, (exec program ⟨op, opr1, opr2⟩ s).mem) ∧
      (exec program ⟨op, opr1, opr2⟩ s).pc < 0x8000 := by
    intro jumps same
    rw [jump_val s.cpu s.mem decoded jumps, same]
    split
    · rw [went.1, went.2]
      exact ⟨rfl, goTo_pc pc⟩
    · exact ⟨rfl, pc⟩
  cases op with
  | jmp =>
    refine jump (.inl rfl) ?_
    rw [← target]
    rfl
  | jz =>
    refine jump (.inr (.inl rfl)) ?_
    rw [← target]
    rfl
  | jnz =>
    refine jump (.inr (.inr rfl)) ?_
    rw [← target]
    show (if s.cpu.flagCheck RVM_CPU_FLAG_RZ = true then s else s.goTo (s.target? program opr1)) =
      if (!s.cpu.flagCheck RVM_CPU_FLAG_RZ) = true then s.goTo (s.target? program opr1) else s
    cases s.cpu.flagCheck RVM_CPU_FLAG_RZ <;> rfl
  | call =>
    show (rvmCpuExecCall s.cpu s.mem decoded).val =
      ((s.call (s.target? program opr1)).cpu, (s.call (s.target? program opr1)).mem) ∧
      (s.call (s.target? program opr1)).pc < 0x8000
    rw [call_val, target]
    have called := call_matches pc (transferTarget s.cpu decoded)
    exact ⟨called.1.symm, called.2⟩
  | _ => cases transfers

theorem ret_matches {s : SourceState} (pc : s.pc < 0x8000) (decoded : RvmInstr) :
    (rvmCpuExecRet s.cpu s.mem decoded).val = (s.ret.cpu, s.ret.mem) ∧ s.ret.pc < 0x8000 := by
  rw [ret_val]
  unfold ret
  by_cases empty : RVM_MEMORY_STACK_END - 1 < s.rsp.toNat
  · rw [if_pos empty, if_pos (show 0xFEFE < s.cpu.regs.rsp.toNat from empty)]
    exact ⟨rfl, pc⟩
  · have went := goTo_cpu { s with rsp := s.rsp + 2 } (s.mem.word s.rsp.toNat)
    rw [if_neg empty, if_neg (show ¬ 0xFEFE < s.cpu.regs.rsp.toNat from empty), went.1, went.2]
    exact ⟨rfl, goTo_pc pc⟩

theorem rip_toNat {s : SourceState} (pc : s.pc < 0x8000) :
    s.cpu.regs.rip.toNat = 2 * s.pc := by
  show (BitVec.ofNat 16 (2 * s.pc)).toNat = _
  rw [BitVec.toNat_ofNat]
  omega

/-- The fetch leaves rip at the index of the next instruction. -/
theorem fetched_next (s : SourceState) : s.vm.fetched = s.next.cpu := by
  have rip : BitVec.ofNat 16 (2 * s.pc) + 2 = BitVec.ofNat 16 (2 * (s.pc + 1)) := by
    refine BitVec.eq_of_toNat_eq ?_
    rw [BitVec.toNat_add, BitVec.toNat_ofNat, BitVec.toNat_ofNat]
    show (2 * s.pc % 2 ^ 16 + 2) % 2 ^ 16 = _
    omega
  show RvmCpu.mk ⟨s.rv, BitVec.ofNat 16 (2 * s.pc) + 2, s.rsp, 0, s.flags⟩ s.halt = _
  rw [rip]
  rfl

theorem step_exec {program : RsmProgram} {s : SourceState} {instr : RsmInstr}
    (running : s.halt = false) (at_ : program.instrs.items[s.pc]? = some instr) :
    s.step program = exec program instr s.next := by
  unfold step
  rw [if_neg (Bool.eq_false_iff.mp running), at_]

/-- Where the machine has nothing to fetch, the source-level machine has no instruction. -/
theorem step_idle {program : RsmProgram} (small : program.instrs.items.length ≤ 0x3FFF)
    {s : SourceState} (pc : s.pc < 0x8000) (idle : s.vm.pending = none) :
    s.step program = s := by
  unfold step
  split
  · rfl
  · next running =>
    have outside : program.instrs.items[s.pc]? = none := by
      refine List.getElem?_eq_none (Nat.not_lt.mp fun inside => ?_)
      have rip : s.vm.cpu.regs.rip.toNat = 2 * s.pc := rip_toNat pc
      have pending := RvmVm.pending_eq_some.mpr
        ⟨Bool.eq_false_iff.mpr running, (by omega : s.vm.cpu.regs.rip.toNat ≤ 0x7FFD), rfl⟩
      cases idle.symm.trans pending
    rw [outside]

theorem load_matches {s : SourceState} (pc : s.pc < 0x8000) (rvd : RvmReg) (addr : Word) :
    ((s.load rvd addr).cpu, (s.load rvd addr).mem) =
      (if addr.toNat % 2 = 0 then s.cpu.setRv rvd (s.mem.word addr.toNat) else s.cpu.setHalt,
        s.mem) ∧ (s.load rvd addr).pc < 0x8000 := by
  unfold load
  split <;> exact ⟨rfl, pc⟩

theorem store_matches {s : SourceState} (pc : s.pc < 0x8000) (addr value : Word) :
    ((s.store addr value).cpu, (s.store addr value).mem) =
      (if addr.toNat % 2 = 0 then (s.cpu, s.mem.setWord addr.toNat value)
        else (s.cpu.setHalt, s.mem)) ∧ (s.store addr value).pc < 0x8000 := by
  unfold store
  split <;> exact ⟨rfl, pc⟩

end SourceState

/-! ## One instruction -/

/-- MOV, the arithmetic opcodes and CMP, given the value of the word's source operand. -/
theorem source_matches {program : RsmProgram} {op : RvmOpcode} (takes : op.takesSource = true)
    {s : SourceState} (pc : s.pc < 0x8000) {rvd : RvmReg} {mode : RvmMode} {operand : Byte}
    {opr2 : RsmOperand}
    (source : (rvmDecode (rvmEncode op rvd mode operand)).source s.cpu = s.value opr2) :
    (op.handler s.cpu s.mem (rvmDecode (rvmEncode op rvd mode operand))).val =
        ((SourceState.exec program ⟨op, .reg rvd, opr2⟩ s).cpu,
          (SourceState.exec program ⟨op, .reg rvd, opr2⟩ s).mem) ∧
      (SourceState.exec program ⟨op, .reg rvd, opr2⟩ s).pc < 0x8000 := by
  have computed : SourceState.exec program ⟨op, .reg rvd, opr2⟩ s =
      s.withCpu (op.compute s.cpu rvd (s.value opr2)).val := by
    cases op <;> first | rfl | cases takes
  have keeps := compute_keeps op s.cpu rvd (s.value opr2)
  have reg : (rvmDecode (rvmEncode op rvd mode operand)).reg = rvd := by
    rw [rvmDecode_rvmEncode]
  rw [handler_compute takes, source, reg, computed, s.withCpu_cpu keeps.1 keeps.2]
  exact ⟨rfl, pc⟩

/-- What the refinement asks of the instruction at index `i`: its numbers fit a byte, it has no
label in brackets, and if it is a control-flow instruction its operand is a register or a label
within reach. -/
structure SupportedAt (program : RsmProgram) (i : Nat) (instr : RsmInstr) : Prop where
  numbers : ∀ v, (instr.opr1 = .imm v ∨ instr.opr1 = .mem (.imm v) ∨ instr.opr2 = .imm v ∨
    instr.opr2 = .mem (.imm v)) → 0 ≤ v.toInt ∧ v.toInt ≤ 255
  brackets : ∀ name, instr.opr1 ≠ .mem (.label name) ∧ instr.opr2 ≠ .mem (.label name)
  noNumber : instr.opcode.transfers = true → instr.opr1.isImm = false
  reach : instr.opcode.transfers = true → ∀ name, instr.opr1 = .label name →
    ∃ a, program.address? name = some a ∧ Reaches i a

/-- The operand byte of a supported memory operand, and the address the machine makes of it. -/
theorem mem_source (program : RsmProgram) (op : RvmOpcode) (r : RvmReg) (s : SourceState)
    {mem : RsmMem} (given : mem ≠ .none) (brackets : ∀ name, mem ≠ .label name)
    (numbers : ∀ v, mem = .imm v → 0 ≤ v.toInt ∧ v.toInt ≤ 255) :
    ∃ mode operand, mem.operand? program = some (mode, operand) ∧
      (rvmDecode (rvmEncode op r mode operand)).source s.cpu = s.address mem := by
  cases mem with
  | none => exact absurd rfl given
  | imm v => exact ⟨_, _, rfl, source_imm op r (numbers v rfl) s.cpu⟩
  | reg r' => exact ⟨_, _, rfl, source_reg op r r' s.cpu⟩
  | label name => exact absurd rfl (brackets name)

/-- **One instruction.** The word of a supported instruction does to the CPU and the memory what
the source-level machine does to them. -/
theorem exec_matches {program : RsmProgram} {i : Nat} {instr : RsmInstr} (accepted : Accepted instr)
    (supported : SupportedAt program i instr) (small : i < 0x3FFF) {w : Word}
    (encoded : (rsmEncodeInstr program instr i).val = w.toNat) {s : SourceState}
    (pc : s.pc = i + 1) :
    (rvmDecode w).opcode = instr.opcode.code ∧
    (instr.opcode.handler s.cpu s.mem (rvmDecode w)).val =
        ((SourceState.exec program instr s).cpu, (SourceState.exec program instr s).mem) ∧
      (SourceState.exec program instr s).pc < 0x8000 := by
  have bound : s.pc < 0x8000 := by omega
  have rip : s.cpu.regs.rip.toNat = 2 * i + 2 := by
    rw [SourceState.rip_toNat bound, pc, Nat.mul_succ]
  cases accepted_shape accepted.check with
  | @sourceImm op rvd v takes =>
    obtain rfl := word_unique encoded (encode_sourceImm program i takes rvd v)
    exact ⟨by rw [rvmDecode_rvmEncode], source_matches takes bound
      (source_imm op rvd (supported.numbers v (.inr (.inr (.inl rfl)))) s.cpu)⟩
  | @sourceReg op rvd rvs takes =>
    obtain rfl := word_unique encoded (encode_sourceReg program i takes rvd rvs)
    exact ⟨by rw [rvmDecode_rvmEncode], source_matches takes bound (source_reg op rvd rvs s.cpu)⟩
  | @load rvd mem =>
    obtain ⟨mode, operand, found, source⟩ := mem_source program .load rvd s
      (fun same => accepted.mem2 (congrArg _ same))
      (fun name same => (supported.brackets name).2 (congrArg _ same))
      fun v same => supported.numbers v (.inr (.inr (.inr (congrArg _ same))))
    have value := encode_load program i rvd mem
    rw [RsmMem.encoded, found] at value
    obtain rfl := word_unique encoded value
    have loaded := SourceState.load_matches bound rvd (s.address mem)
    refine ⟨by rw [rvmDecode_rvmEncode], ?_, loaded.2⟩
    show (rvmCpuExecLoad s.cpu s.mem _).val = _
    rw [load_val, source]
    rw [rvmDecode_rvmEncode]
    exact loaded.1.symm
  | @store mem rvs =>
    obtain ⟨mode, operand, found, source⟩ := mem_source program .store rvs s
      (fun same => accepted.mem1 (congrArg _ same))
      (fun name same => (supported.brackets name).1 (congrArg _ same))
      fun v same => supported.numbers v (.inr (.inl (congrArg _ same)))
    have value := encode_store program i rvs mem
    rw [RsmMem.encoded, found] at value
    obtain rfl := word_unique encoded value
    have stored := SourceState.store_matches bound (s.address mem) (s.rv rvs)
    refine ⟨by rw [rvmDecode_rvmEncode], ?_, stored.2⟩
    show (rvmCpuExecStore s.cpu s.mem _).val = _
    rw [store_val, source]
    rw [rvmDecode_rvmEncode]
    exact stored.1.symm
  | @toLabel op name opr2 transfers =>
    obtain ⟨a, defined, reaches⟩ := supported.reach transfers name rfl
    have value := encode_toLabel program i transfers defined opr2
    rw [intOfSize_eq (by omega)] at value
    obtain rfl := word_unique encoded value
    have target := target_of_reaches op "" rip small reaches
    refine ⟨ctrlImm_opcode "" _, SourceState.transfer_matches transfers bound ?_⟩
    rw [SourceState.indexOf_double target, SourceState.target?, defined, Option.map_some]
  | @toReg op r opr2 transfers =>
    obtain rfl := word_unique encoded (encode_toReg program i transfers r opr2)
    refine ⟨ctrlReg_opcode r, SourceState.transfer_matches transfers bound ?_⟩
    rw [transferTarget_ctrlReg]
    rfl
  | toImm transfers => cases supported.noNumber transfers
  | ret =>
    obtain rfl := word_unique encoded (encode_ret program i .none .none)
    exact ⟨by decide, SourceState.ret_matches bound (rvmDecode rvmRet)⟩

/-! ## Runs -/

/-- The programs of the refinement. -/
structure Supported (program : RsmProgram) : Prop where
  nonempty : 1 ≤ program.instrs.items.length
  small : program.instrs.items.length ≤ 0x3FFF
  each : ∀ i instr, program.instrs.items[i]? = some instr → SupportedAt program i instr

/-- The next cycle fetches inside the program, if it fetches, and stores outside of it, if it
stores. -/
structure Confined (program : RsmProgram) (vm : RvmVm) : Prop where
  fetch : vm.pending.isSome = true → vm.cpu.regs.rip.toNat < 2 * program.instrs.items.length
  store : vm.pendingOpcode = some .store → ∀ offset data, .write offset data ∈ vm.cycle.events →
    2 * program.instrs.items.length ≤ offset.toNat

/-- The words of the program are in memory from address 0 on. -/
def HoldsWords (program : RsmProgram) (mem : RvmMemory) : Prop :=
  ∀ i instr, program.instrs.items[i]? = some instr →
    (rsmEncodeInstr program instr i).val = (mem.word (2 * i)).toNat

/-- The machine and the source-level machine are in the same state. -/
structure Refines (program : RsmProgram) (vm : RvmVm) (s : SourceState) : Prop where
  same : vm = s.vm
  pc : s.pc < 0x8000
  words : HoldsWords program vm.mem

/-- A cycle that stores outside of the program leaves its words: the other writes are those of
CALL, to the stack. -/
theorem HoldsWords.cycle {program : RsmProgram} (supported : Supported program) {vm : RvmVm}
    (words : HoldsWords program vm.mem) (confined : Confined program vm) :
    HoldsWords program vm.cycle.val.2.mem := by
  intro i instr at_
  have small := supported.small
  obtain ⟨inside, _⟩ := List.getElem?_eq_some_iff.mp at_
  have stack := RvmVm.stack_cases vm
  rw [words i instr at_]
  generalize vm.completesCall = completes, vm.popsRet = pops at stack
  cases stack with
  | push room rsp mem =>
    have high := vm.cpu.regs.rsp.isLt
    rw [mem, RvmMemory.word_setWord_of_disjoint _ _ (by omega) (by omega)]
  | store opcode write even rsp mem =>
    rename_i offset data
    have outside := confined.store opcode offset data write
    have high := offset.isLt
    rw [mem, RvmMemory.word_setWord_of_disjoint _ _ (by omega) (by omega)]
  | pop _ _ mem _ | keep _ mem => rw [mem]

/-- A cycle without a pending instruction changes nothing. -/
theorem RvmVm.cycle_of_none {vm : RvmVm} (idle : vm.pending = none) : vm.cycle.val.2 = vm := by
  have cases_ := RvmVm.cycle_cases vm
  generalize vm.cycle.val.2 = vm', vm.cycle.val.1 = ret, vm.cycle.events = events at cases_
  cases cases_ with
  | halted | ripOutOfBounds => rfl
  | executed pending => cases idle.symm.trans pending

/-- **The simulation step.** -/
theorem Refines.step {program : RsmProgram} (supported : Supported program)
    (accepted : ∀ instr ∈ program.instrs.items, Accepted instr) {vm : RvmVm} {s : SourceState}
    (refines : Refines program vm s) (confined : Confined program vm) :
    Refines program vm.cycle.val.2 (s.step program) := by
  have small := supported.small
  have kept := refines.words.cycle supported confined
  obtain ⟨rfl, pc, words⟩ := refines
  have rip : s.vm.cpu.regs.rip.toNat = 2 * s.pc := SourceState.rip_toNat pc
  cases pending : s.vm.pending with
  | none =>
    rw [RvmVm.cycle_of_none pending] at kept ⊢
    rw [SourceState.step_idle small pc pending]
    exact ⟨rfl, pc, kept⟩
  | some decoded =>
    have fetched := confined.fetch (by rw [pending]; rfl)
    obtain ⟨running, _, decode⟩ := RvmVm.pending_eq_some.mp pending
    have inside : s.pc < program.instrs.items.length := by omega
    have at_ : program.instrs.items[s.pc]? = some program.instrs.items[s.pc] :=
      List.getElem?_eq_getElem inside
    obtain ⟨opcode, value, pc'⟩ := exec_matches (accepted _ (List.getElem_mem inside))
      (supported.each s.pc _ at_) (by omega) (words s.pc _ at_) (s := s.next) rfl
    rw [rip] at decode
    rw [decode] at opcode value
    rw [← SourceState.step_exec running at_] at value pc'
    have left : s.vm.cycle.val.2 = (s.step program).vm := by
      rw [RvmVm.cycle_of_pending pending opcode, s.fetched_next]
      exact congrArg (fun out : RvmCpu × RvmMemory => RvmVm.mk out.1 out.2) value
    exact ⟨left, pc', kept⟩

/-- Every instruction of a supported program has a word. -/
theorem SupportedAt.encodes {program : RsmProgram} {i : Nat} {instr : RsmInstr}
    (supported : SupportedAt program i instr) (accepted : Accepted instr) :
    (rsmEncodeInstr program instr i).val ≠ -1 := by
  have resolved : labelUndefined program instr.opr1 = false := by
    obtain ⟨op, opr1, opr2⟩ := instr
    cases accepted_shape accepted.check with
    | toLabel transfers =>
      obtain ⟨a, defined, _⟩ := supported.reach transfers _ rfl
      exact (labelUndefined_label program _).mpr (by rw [defined]; rfl)
    | _ => rfl
  refine fun error => (encode_error_iff i).mp error (Encodable.hasWord ⟨supported.noNumber, ?_⟩
    accepted resolved)
  intro name names
  rcases names with label | label
  · exact absurd label (supported.brackets name).1
  · exact absurd label (supported.brackets name).2

/-- The image of a supported program, loaded: the emitter succeeds, the loader takes its file, and
the machine holds the words of the program. -/
theorem loads_words {program : RsmProgram} (supported : Supported program)
    (accepted : ∀ instr ∈ program.instrs.items, Accepted instr) (old : List Byte) :
    ∃ bytes vm, (rsmEmitBinary .working program old).val = (0, bytes) ∧
      Loads { content := bytes } vm ∧ HoldsWords program vm.mem := by
  have nonempty := supported.nonempty
  have small := supported.small
  have encodes : ∀ i instr, program.instrs.items[i]? = some instr →
      (rsmEncodeInstr program instr i).val ≠ -1 := fun i instr at_ =>
    (supported.each i instr at_).encodes (accepted instr (List.mem_of_getElem? at_))
  have all : AllEncoded program 0 program.instrs.items := fun i instr at_ => by
    rw [Nat.zero_add]
    exact encodes i instr at_
  have length : (wordsToBytes (wordsFrom program 0 program.instrs.items)).length =
      2 * program.instrs.items.length := by
    rw [length_wordsToBytes, length_wordsFrom]
  have size :
      (wordsToBytes (wordsFrom program 0 program.instrs.items)).length ≤ RVM_MEMORY_SIZE := by
    unfold RVM_MEMORY_SIZE
    omega
  have some_ : wordsToBytes (wordsFrom program 0 program.instrs.items) ≠ [] := fun none => by
    rw [none, List.length_nil] at length
    omega
  refine ⟨_, _, rsmEmitBinary_of_all all old, rvmVmLoad_ok freshVm some_ size,
    fun i instr at_ => ?_⟩
  obtain ⟨w, word⟩ := (not_not.mp (mt (encode_error_iff i).mpr (encodes i instr at_))).encoded i
  have found := getElem?_wordsFrom program (i := 0) at_
  rw [Nat.zero_add, word] at found
  have loaded := freshVm.mem.word_copy found size
  rw [BitVec.ofInt_natCast, BitVec.ofNat_toNat, BitVec.setWidth_eq] at loaded
  exact word.trans (congrArg (fun w : Word => (w.toNat : Int)) loaded.symm)

/-- **Refinement.** The words of a parsed and supported program are emitted and loaded. After any
number of cycles of the machine, all of which fetch inside the program and store outside of it,
the machine is in the state that the source-level machine reaches in as many steps, with rip twice
its index. -/
theorem assembler_refines {realloc : Nat → Bool} {src : List Byte} {program : RsmProgram}
    (parses : Parses realloc src program) (supported : Supported program) (old : List Byte) :
    ∃ bytes vm, (rsmEmitBinary .working program old).val = (0, bytes) ∧
      Loads { content := bytes } vm ∧
      ∀ k, (∀ j < k, Confined program (vm.after j)) →
        let s := (SourceState.step program)^[k] (SourceState.start vm.mem)
        vm.after k = s.vm ∧ (vm.after k).cpu.regs.rip.toNat = 2 * s.pc := by
  have accepted := parses.accepted
  obtain ⟨bytes, vm, emitted, loaded, words⟩ := loads_words supported accepted old
  refine ⟨bytes, vm, emitted, loaded, fun k confined => ?_⟩
  have first : Refines program vm (SourceState.start vm.mem) := by
    refine ⟨?_, Nat.zero_lt_of_lt (Nat.lt_succ_self _), words⟩
    show RvmVm.mk vm.cpu vm.mem = _
    rw [loaded.cpu]
    rfl
  have refines : Refines program (vm.after k)
      ((SourceState.step program)^[k] (SourceState.start vm.mem)) :=
    run_simulates first
      (fun _ _ refines confined => Refines.step supported accepted refines confined) k confined
  refine ⟨refines.same, ?_⟩
  rw [refines.same]
  exact SourceState.rip_toNat refines.pc

theorem loop_supported : Supported loopProgram := by
  refine ⟨by decide, by decide, fun i instr at_ => ?_⟩
  cases i with
  | zero =>
    cases at_
    refine ⟨fun v => ?_, fun name => ⟨nofun, nofun⟩, fun _ => rfl, fun _ name same => ?_⟩
    · rintro (h | h | h | h) <;> cases h
    · cases same
      exact ⟨0, rfl, by decide⟩
  | succ i => cases at_

theorem assembler_refines_loop :
    ∃ bytes vm, (rsmEmitBinary .working loopProgram []).val = (0, bytes) ∧
      Loads { content := bytes } vm ∧
      ∀ k, (∀ j < k, Confined loopProgram (vm.after j)) →
        let s := (SourceState.step loopProgram)^[k] (SourceState.start vm.mem)
        vm.after k = s.vm ∧ (vm.after k).cpu.regs.rip.toNat = 2 * s.pc :=
  assembler_refines loop_parses loop_supported []

end RocketVm
