import RocketVm.Laws.Cpu

/-!
# The words of jumps, and what the handlers leave

The target of an encoded control-flow word, and for each kind of handler one equation for the
state it leaves. The equations are read off `Outcome`.
-/

namespace RocketVm

open Lib

/-! ## Control-flow words -/

section Control

variable {op : RvmOpcode}

theorem ctrlImm_opcode (text : String) (simm : Word) :
    (rvmDecode (ctrlImm op text simm).val).opcode = op.code := by
  rw [rvmDecode_opcode, ctrlImm_toNat]
  omega

theorem ctrlReg_opcode (r : RvmReg) : (rvmDecode (ctrlReg op r)).opcode = op.code := by
  have := r.isLt
  rw [rvmDecode_opcode, ctrlReg_toNat]
  omega

/-- The sign extension of an 11-bit field gives back an offset that fits the field. -/
theorem sign_extend_offset {w simm : Word} (low : w.toNat % 2048 = simm.toNat % 2048)
    (range : -1024 ≤ simm.toInt ∧ simm.toInt ≤ 1023) :
    (if (w &&& 0x7FF) &&& 0x400 ≠ 0 then (w &&& 0x7FF) ||| 0xF800 else w &&& 0x7FF) = simm := by
  have field : (w &&& 0x7FF).toNat = simm.toNat % 2048 := by
    rw [BitVec.toNat_and]
    exact (Nat.and_two_pow_sub_one_eq_mod w.toNat 11).trans low
  have signBit : ((w &&& 0x7FF) &&& 0x400).toNat = simm.toNat / 1024 % 2 * 1024 := by
    rw [BitVec.toNat_and, field]
    show simm.toNat % 2048 &&& 2 ^ 10 = _
    rw [Nat.and_two_pow, Nat.testBit_eq_decide_div_mod_eq]
    have : simm.toNat % 2048 / 2 ^ 10 % 2 = simm.toNat / 1024 % 2 := by omega
    rw [this]
    rcases Nat.mod_two_eq_zero_or_one (simm.toNat / 1024) with bit | bit <;> rw [bit] <;> rfl
  have signed := BitVec.toInt_eq_toNat_cond simm
  have size := simm.isLt
  rw [← BitVec.toNat_inj]
  split
  · next negative =>
    have bit : simm.toNat / 1024 % 2 = 1 := by
      rcases Nat.mod_two_eq_zero_or_one (simm.toNat / 1024) with zero | one
      · have clear : (w &&& 0x7FF) &&& 0x400 = 0 := by
          refine BitVec.eq_of_toNat_eq ?_
          rw [signBit, zero]
          rfl
        exact absurd clear negative
      · exact one
    have joined : simm.toNat % 2048 ||| 0xF800 = simm.toNat % 2048 + 0xF800 := by
      rw [Nat.or_comm, Nat.add_comm]
      exact (Nat.two_pow_add_eq_or_of_lt (i := 11) (b := simm.toNat % 2048) (by omega) 31).symm
    rw [BitVec.toNat_or, field]
    show simm.toNat % 2048 ||| 0xF800 = _
    rw [joined]
    split at signed <;> omega
  · next nonneg =>
    have bit : simm.toNat / 1024 % 2 = 0 := by
      rw [Decidable.not_not] at nonneg
      rw [nonneg] at signBit
      have : (0 : Word).toNat = 0 := rfl
      omega
    rw [field]
    split at signed <;> omega

theorem transferTarget_imm (cpu : RvmCpu) (instr : RvmInstr)
    (mode : RvmMode.ofBit (instr.raw >>> 11) = .immOrAddr) :
    transferTarget cpu instr = cpu.regs.rip +
      (if instr.raw &&& 0x7FF &&& 0x400 ≠ 0 then instr.raw &&& 0x7FF ||| 0xF800
        else instr.raw &&& 0x7FF) := by
  unfold transferTarget
  rw [mode]

theorem transferTarget_reg (cpu : RvmCpu) (instr : RvmInstr)
    (mode : RvmMode.ofBit (instr.raw >>> 11) = .reg) :
    transferTarget cpu instr = cpu.regs.rv (RvmReg.ofBits instr.raw) := by
  unfold transferTarget
  rw [mode]

theorem transferTarget_ctrlImm (cpu : RvmCpu) (text : String) {simm : Word}
    (range : -1024 ≤ simm.toInt ∧ simm.toInt ≤ 1023) :
    transferTarget cpu (rvmDecode (ctrlImm op text simm).val) = cpu.regs.rip + simm := by
  have word := ctrlImm_toNat op text simm
  generalize (ctrlImm op text simm).val = w at word
  have mode : RvmMode.ofBit (w >>> 11) = .immOrAddr := by
    refine RvmMode.ofBit_eq_of_code ?_
    rw [BitVec.toNat_ushiftRight, Nat.shiftRight_eq_div_pow]
    show _ = 0
    omega
  have low : w.toNat % 2048 = simm.toNat % 2048 := by omega
  rw [transferTarget_imm cpu (rvmDecode w) mode]
  exact congrArg (cpu.regs.rip + ·) (sign_extend_offset low range)

theorem transferTarget_ctrlReg (cpu : RvmCpu) (r : RvmReg) :
    transferTarget cpu (rvmDecode (ctrlReg op r)) = cpu.regs.rv r := by
  have word := ctrlReg_toNat op r
  have size := r.isLt
  generalize ctrlReg op r = w at word
  have mode : RvmMode.ofBit (w >>> 11) = .reg := by
    refine RvmMode.ofBit_eq_of_code ?_
    rw [BitVec.toNat_ushiftRight, Nat.shiftRight_eq_div_pow]
    show _ = 1
    omega
  have reg : RvmReg.ofBits w = r := Fin.ext (by rw [RvmReg.ofBits_val]; omega)
  rw [transferTarget_reg cpu (rvmDecode w) mode]
  exact congrArg cpu.regs.rv reg

end Control

/-! ## What the handlers leave -/

section Values

variable (cpu : RvmCpu) (mem : RvmMemory) (instr : RvmInstr)

/-- A jump to an address: odd ones are refused. -/
def RvmCpu.jumpTo (cpu : RvmCpu) (target : Word) : RvmCpu :=
  if target.toNat % 2 = 0 then cpu.setRip target else cpu.setHalt

theorem jump_val {op : RvmOpcode} (jumps : op = .jmp ∨ op = .jz ∨ op = .jnz) :
    (op.handler cpu mem instr).val =
      (if op.branches cpu = true then cpu.jumpTo (transferTarget cpu instr) else cpu, mem) := by
  have outcome := handler_outcome cpu mem instr op
  generalize (op.handler cpu mem instr).val = out, (op.handler cpu mem instr).events = events
    at outcome
  unfold RvmCpu.jumpTo
  cases outcome with
  | passed _ untaken => rw [untaken, if_neg Bool.false_ne_true]
  | jumpFault taken fault => rw [if_pos taken, if_neg (odd_of_targetFault fault)]
  | jumped taken even => rw [if_pos taken, if_pos even]
  | computed writes => rcases jumps with rfl | rfl | rfl <;> cases writes
  | dividedByZero divides => rcases jumps with rfl | rfl | rfl <;> simp at divides
  | _ => rcases jumps with h | h | h <;> cases h

theorem call_val : (rvmCpuExecCall cpu mem instr).val =
    if (transferTarget cpu instr).toNat % 2 = 0 ∧ 0xF002 ≤ cpu.regs.rsp.toNat then
      ((cpu.setRsp (cpu.regs.rsp - 2)).setRip (transferTarget cpu instr),
        mem.setWord (cpu.regs.rsp.toNat - 2) cpu.regs.rip)
    else (cpu.setHalt, mem) := by
  rcases (handler_outcome cpu mem instr .call).call with
    ⟨msg, fault, out, _⟩ | ⟨_, full, out, _⟩ | ⟨even, room, out, _⟩
  · exact out.trans (if_neg fun h => odd_of_targetFault fault h.1).symm
  · exact out.trans (if_neg fun h => by omega).symm
  · exact out.trans (if_pos ⟨even, room⟩).symm

theorem ret_val : (rvmCpuExecRet cpu mem instr).val =
    (if 0xFEFE < cpu.regs.rsp.toNat then cpu.setHalt
      else (cpu.setRsp (cpu.regs.rsp + 2)).jumpTo (mem.word cpu.regs.rsp.toNat), mem) := by
  unfold RvmCpu.jumpTo
  rcases (handler_outcome cpu mem instr .ret).ret with
    ⟨empty, out, _⟩ | ⟨nonempty, msg, fault, out, _⟩ | ⟨nonempty, even, out, _⟩
  · rw [if_pos empty]
    exact out
  · rw [if_neg (by omega), if_neg (odd_of_targetFault fault)]
    exact out
  · rw [if_neg (by omega), if_pos even]
    exact out

theorem load_val : (rvmCpuExecLoad cpu mem instr).val =
    (if (instr.source cpu).toNat % 2 = 0 then
      cpu.setRv instr.reg (mem.word (instr.source cpu).toNat)
    else cpu.setHalt, mem) := by
  unfold rvmCpuExecLoad
  cases h : accessFault "LOAD out of bounds" "LOAD unaligned access" (instr.source cpu) with
  | none =>
    rw [if_pos (accessFault_eq_none.mp h)]
    simp only [h]
    rfl
  | some msg =>
    rw [if_neg (odd_of_accessFault h)]
    simp only [h]
    rfl

theorem store_val : (rvmCpuExecStore cpu mem instr).val =
    if (instr.source cpu).toNat % 2 = 0 then
      (cpu, mem.setWord (instr.source cpu).toNat (cpu.regs.rv instr.reg))
    else (cpu.setHalt, mem) := by
  unfold rvmCpuExecStore
  cases h : accessFault "STORE out of bounds" "STORE unaligned access" (instr.source cpu) with
  | none =>
    rw [if_pos (accessFault_eq_none.mp h)]
    simp only [h]
    rfl
  | some msg =>
    rw [if_neg (odd_of_accessFault h)]
    simp only [h]
    rfl

end Values

end RocketVm
