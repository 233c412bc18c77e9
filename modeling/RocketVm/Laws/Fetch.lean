import RocketVm.Laws.Frame
import RocketVm.Laws.Transfer

/-!
# Control transfers and the fetch

A control transfer checks its target, and the next cycle checks rip again. `Transfers` says where a
taken transfer goes, `transfer_lands` when it gets there, and `transfers_agree` when the two checks
agree: the handlers compare the target with the size of the memory, the fetch compares rip with the
end of the program region.
-/

namespace RocketVm

open Lib

/-! ## Taken transfers -/

/-- The next cycle takes a control transfer to `target`: a jump whose condition holds, a CALL, or a
RET with an address on the stack. -/
inductive Transfers (vm : RvmVm) : RvmOpcode → Word → Prop
  | jump {instr op} (pending : vm.pending = some instr) (opcode : vm.pendingOpcode = some op)
      (taken : op.branches vm.fetched = true) : Transfers vm op (transferTarget vm.fetched instr)
  | call {instr} (pending : vm.pending = some instr) (opcode : vm.pendingOpcode = some .call) :
      Transfers vm .call (transferTarget vm.fetched instr)
  | ret {instr} (pending : vm.pending = some instr) (opcode : vm.pendingOpcode = some .ret)
      (nonempty : vm.cpu.regs.rsp.toNat ≤ 0xFEFE) :
      Transfers vm .ret (vm.mem.word vm.cpu.regs.rsp.toNat)

/-- The transfer completes: its target is aligned, and a CALL finds room on the stack. -/
def Completes (vm : RvmVm) (op : RvmOpcode) (target : Word) : Prop :=
  target.toNat % 2 = 0 ∧ ¬ (op = .call ∧ vm.cpu.regs.rsp.toNat < 0xF002)

/-- The exact target of a relative transfer, before it is cut to 16 bits. -/
def relativeTarget (vm : RvmVm) (instr : RvmInstr) : Option Int :=
  match RvmMode.ofBit (instr.raw >>> 11) with
  | .immOrAddr => some ((vm.cpu.regs.rip.toNat : Int) + 2 + (instr.raw.setWidth 11).toInt)
  | .reg => none

section Lands

variable {vm : RvmVm} {op : RvmOpcode} {target : Word}

/-- A transfer fails exactly when it does not complete. -/
theorem Transfers.faults_iff (h : Transfers vm op target) :
    vm.faults ↔ ¬ Completes vm op target := by
  unfold Completes
  cases h with
  | jump pending opcode taken =>
    have noCall := (RvmOpcode.branches_ne taken).1
    rw [RvmVm.faults_iff pending opcode, RvmOpcode.faults_of_branches taken, ne_eq,
      targetFault_eq_none]
    exact not_congr (and_iff_left fun h => noCall h.1).symm
  | call pending opcode =>
    rw [RvmVm.faults_iff pending opcode, not_and_or, not_not]
    exact or_congr (not_congr targetFault_eq_none) (and_iff_right rfl).symm
  | ret pending opcode nonempty =>
    have noCall : RvmOpcode.ret ≠ .call := RvmOpcode.noConfusion
    rw [RvmVm.faults_iff pending opcode]
    refine (and_iff_right nonempty).trans (not_congr (targetFault_eq_none.trans ?_))
    exact (and_iff_left fun h => noCall h.1).symm

/-- A transfer that completes goes to its target. -/
theorem Transfers.lands (h : Transfers vm op target) (completes : Completes vm op target) :
    vm.cycle.val.2.cpu.halt = false ∧ vm.cycle.val.2.cpu.regs.rip = target := by
  obtain ⟨even, room⟩ := completes
  have halt : ∀ {instr}, vm.pending = some instr → vm.fetched.halt = false :=
    fun pending => (RvmVm.pending_eq_some.mp pending).1
  cases h with
  | jump pending opcode taken =>
    rw [RvmVm.cycle_val pending opcode, jump_val _ _ _ (RvmOpcode.branches_jumps taken),
      if_pos taken, RvmCpu.jumpTo, if_pos even]
    exact ⟨halt pending, rfl⟩
  | call pending opcode =>
    have room' : 0xF002 ≤ vm.fetched.regs.rsp.toNat := Nat.not_lt.mp fun full => room ⟨rfl, full⟩
    have after := call_val vm.fetched vm.mem
    rw [RvmVm.cycle_val pending opcode]
    simp only [RvmOpcode.handler, after, even, room', and_self, ↓reduceIte]
    exact ⟨halt pending, rfl⟩
  | ret pending opcode nonempty =>
    have nonempty' : ¬ 0xFEFE < vm.fetched.regs.rsp.toNat := Nat.not_lt.mpr nonempty
    rw [RvmVm.cycle_val pending opcode]
    simp only [RvmOpcode.handler, ret_val, nonempty', ↓reduceIte]
    show ((vm.fetched.setRsp _).jumpTo (vm.mem.word vm.cpu.regs.rsp.toNat)).halt = _ ∧
      ((vm.fetched.setRsp _).jumpTo (vm.mem.word vm.cpu.regs.rsp.toNat)).regs.rip = _
    rw [RvmCpu.jumpTo, if_pos even]
    exact ⟨halt pending, rfl⟩

/-- A transfer that fails halts at the following instruction. -/
theorem Transfers.halts (h : Transfers vm op target) (fails : ¬ Completes vm op target) :
    vm.cycle.val.2.cpu.halt = true ∧ vm.cycle.val.2.cpu.regs.rip = vm.cpu.regs.rip + 2 := by
  rcases RvmVm.cycle_of_faults (h.faults_iff.mpr fails) with ⟨_, after⟩ | ⟨_, after⟩
  · rw [after]
    exact ⟨rfl, rfl⟩
  · rw [after]
    exact ⟨rfl, rfl⟩

end Lands

/-! ## The two checks -/

/-- What a cycle that takes a transfer to `target` leaves when its check agrees with the check of
the fetch. -/
structure Agrees (vm : RvmVm) (op : RvmOpcode) : Prop where
  /-- The instruction ends in an error at the following instruction, or the next cycle fetches. -/
  lands : (vm.EndsInError ∧ vm.cycle.val.2.cpu.halt = true ∧
      vm.cycle.val.2.cpu.regs.rip = vm.cpu.regs.rip + 2) ∨
    (vm.cycle.val.2.cpu.halt = false ∧ vm.cycle.val.2.pending.isSome = true)
  /-- A relative target outside the program region is an error of the transfer. -/
  region : ∀ instr exact, vm.pending = some instr → op ≠ .ret →
    relativeTarget vm instr = some exact →
    (exact < RVM_MEMORY_PROGRAM_START ∨ (RVM_MEMORY_PROGRAM_END : Int) < exact) → vm.EndsInError

section Checks

variable {vm : RvmVm} {op : RvmOpcode} {target : Word}

/-- The target of a relative transfer is the exact one, cut to 16 bits; the exact one is at most an
11-bit signed offset away. -/
theorem transferTarget_relative {instr : RvmInstr} {exact : Int}
    (relative : relativeTarget vm instr = some exact) :
    transferTarget vm.fetched instr = BitVec.ofInt 16 exact ∧
      (vm.cpu.regs.rip.toNat : Int) + 2 - 1024 ≤ exact ∧
      exact ≤ (vm.cpu.regs.rip.toNat : Int) + 2 + 1023 := by
  unfold relativeTarget at relative
  cases mode : RvmMode.ofBit (instr.raw >>> 11) with
  | reg =>
    rw [mode] at relative
    cases relative
  | immOrAddr =>
    rw [mode] at relative
    cases relative
    have low := BitVec.two_mul_toInt_lt (x := instr.raw.setWidth 11)
    have high := BitVec.le_two_mul_toInt (x := instr.raw.setWidth 11)
    let offset : Word := BitVec.ofInt 16 (instr.raw.setWidth 11).toInt
    have value : offset.toInt = (instr.raw.setWidth 11).toInt := by
      rw [BitVec.toInt_ofInt]
      exact Int.bmod_eq_of_le (by omega) (by omega)
    have field : instr.raw.toNat % 2048 = offset.toNat % 2048 := by
      have cut : (instr.raw.setWidth 11).toNat = instr.raw.toNat % 2048 := BitVec.toNat_setWidth ..
      have signed := BitVec.toInt_eq_toNat_cond (instr.raw.setWidth 11)
      have wide := BitVec.toInt_eq_toNat_cond offset
      have size := offset.isLt
      split at signed <;> split at wide <;> omega
    rw [transferTarget_imm _ _ mode, sign_extend_offset field (by omega)]
    refine ⟨?_, by omega, by omega⟩
    show vm.cpu.regs.rip + 2 + offset = _
    rw [BitVec.ofInt_add, BitVec.ofInt_add, BitVec.ofInt_natCast, BitVec.ofNat_toNat,
      BitVec.setWidth_eq]
    rfl

/-- A relative transfer that lands in the program region was computed there: it did not wrap. -/
theorem exact_inside {instr : RvmInstr} {exact : Int} (pending : vm.pending = some instr)
    (relative : relativeTarget vm instr = some exact)
    (inside : (transferTarget vm.fetched instr).toNat ≤ 0x7FFD) :
    0 ≤ exact ∧ exact ≤ 0x7FFF := by
  obtain ⟨value, low, high⟩ := transferTarget_relative relative
  have fetch := (RvmVm.pending_eq_some.mp pending).2.1
  rw [value, BitVec.toNat_ofInt] at inside
  omega

/-- The target of a transfer other than RET, by the instruction it belongs to. -/
theorem Transfers.target_eq {instr : RvmInstr} (h : Transfers vm op target) (ret : op ≠ .ret)
    (pending : vm.pending = some instr) : target = transferTarget vm.fetched instr := by
  cases h with
  | jump pending' _ _ | call pending' _ =>
    cases pending.symm.trans pending'
    rfl
  | ret _ _ _ => exact absurd rfl ret

/-- The checks agree on a transfer that fails, and on one that lands where the CPU fetches. -/
theorem Transfers.agrees_iff (h : Transfers vm op target) : Agrees vm op ↔
    target.toNat % 2 = 1 ∨ target.toNat ≤ 0x7FFD ∨
      (op = .call ∧ vm.cpu.regs.rsp.toNat < 0xF002) := by
  by_cases completes : Completes vm op target
  · have quiet : ¬ vm.EndsInError := by
      rw [vm.endsInError_iff, h.faults_iff]
      exact not_not.mpr completes
    obtain ⟨running, rip⟩ := h.lands completes
    obtain ⟨even, room⟩ := completes
    have fetches : vm.cycle.val.2.pending.isSome = true ↔ target.toNat ≤ 0x7FFD := by
      rw [Option.isSome_iff_exists]
      constructor
      · rintro ⟨instr, pending⟩
        exact rip ▸ (RvmVm.pending_eq_some.mp pending).2.1
      · intro inside
        exact ⟨_, RvmVm.pending_eq_some.mpr ⟨running, rip.symm ▸ inside, rfl⟩⟩
    constructor
    · rintro ⟨⟨error, _⟩ | ⟨_, pending⟩, _⟩
      · exact absurd error quiet
      · exact .inr (.inl (fetches.mp pending))
    · rintro (odd | inside | full)
      · omega
      · refine ⟨.inr ⟨running, fetches.mpr inside⟩, ?_⟩
        intro instr exact pending ret relative outside
        rw [h.target_eq ret pending] at inside
        have := exact_inside pending relative inside
        unfold RVM_MEMORY_PROGRAM_START RVM_MEMORY_PROGRAM_END at outside
        omega
      · exact absurd full room
  · have error : vm.EndsInError := vm.endsInError_iff.mpr (h.faults_iff.mpr completes)
    refine iff_of_true ⟨.inl ⟨error, h.halts completes⟩, fun _ _ _ _ _ _ => error⟩ ?_
    by_cases even : target.toNat % 2 = 0
    · exact .inr (.inr (not_not.mp fun room => completes ⟨even, room⟩))
    · exact .inl (Nat.mod_two_ne_zero.mp even)

end Checks

/-- **Where the transfer check agrees with the fetch.** Along every run, every taken transfer of
the next cycle ends in an error or is followed by a fetch, and no relative target wraps around, if
and only if every such transfer has an odd target, or one in fetch range, or is a CALL that
overflows the stack. -/
theorem transfers_agree (vm : RvmVm) (k : Nat) :
    (∀ op target, Transfers (vm.after k) op target → Agrees (vm.after k) op) ↔
      ∀ op target, Transfers (vm.after k) op target →
        target.toNat % 2 = 1 ∨ target.toNat ≤ 0x7FFD ∨
          (op = .call ∧ (vm.after k).cpu.regs.rsp.toNat < 0xF002) :=
  forall₂_congr fun _ _ => imp_congr_right fun h => h.agrees_iff

/-- JMP by -1024 from the first instruction: the target wraps around to 0xFC02. -/
def wrappingJump : List Byte := [0x00, 0xB4]

/-- The jump completes, and the next cycle refuses its target. -/
theorem wrapping_jump_disagrees : ¬ ∀ (file : RvmFile) (vm : RvmVm) (k : Nat), Loads file vm →
    ∀ op target, Transfers (vm.after k) op target → Agrees (vm.after k) op := by
  intro agree
  let vm : RvmVm := { freshVm with mem := freshVm.mem.copy wrappingJump }
  have pending : (vm.after 0).pending = some (rvmDecode 0xB400) := by decide +kernel
  have opcode : (vm.after 0).pendingOpcode = some .jmp := by decide +kernel
  have checked := agree { content := wrappingJump } vm 0 rfl .jmp _ (.jump pending opcode rfl)
  have wrapped : (vm.after 0).cycle.val.2.cpu.halt = false ∧
      (vm.after 0).cycle.val.2.pending.isSome = false := by decide +kernel
  rcases checked.lands with ⟨_, halt, _⟩ | ⟨_, fetches⟩
  · exact Bool.false_ne_true (wrapped.1.symm.trans halt)
  · exact Bool.false_ne_true (wrapped.2.symm.trans fetches)

end RocketVm
