import RocketVm.Isa
import Mathlib

/-!
# Encoding and decoding

Each word is a sum of its fields (`rvmEncode_toNat`, `ctrlImm_toNat`, `ctrlReg_toNat`), each
field of a decoded word is a quotient of it (`rvmDecode_opcode` and the rest), and so decoding
inverts encoding for both word layouts.
-/

namespace RocketVm

open Lib

theorem RvmOpcode.code_lt (op : RvmOpcode) : op.code < 16 := by
  cases op <;> decide

theorem RvmOpcode.ofCode?_code (op : RvmOpcode) : RvmOpcode.ofCode? op.code = some op := by
  cases op <;> rfl

theorem RvmMode.code_lt (mode : RvmMode) : mode.code < 2 := by
  cases mode <;> decide

/-- Every number below sixteen is the value of an enumerator. -/
theorem RvmOpcode.exists_code {n : Nat} (h : n < 16) : ∃ op : RvmOpcode, op.code = n := by
  interval_cases n
  exacts [⟨.mov, rfl⟩, ⟨.load, rfl⟩, ⟨.store, rfl⟩, ⟨.add, rfl⟩, ⟨.sub, rfl⟩, ⟨.mul, rfl⟩,
    ⟨.div, rfl⟩, ⟨.mod, rfl⟩, ⟨.shl, rfl⟩, ⟨.shr, rfl⟩, ⟨.cmp, rfl⟩, ⟨.jmp, rfl⟩, ⟨.jz, rfl⟩,
    ⟨.jnz, rfl⟩, ⟨.call, rfl⟩, ⟨.ret, rfl⟩]

theorem land_one (w : Word) : w &&& 1 = 0 ↔ w.toNat % 2 = 0 := by
  rw [← BitVec.toNat_inj, BitVec.toNat_and]
  exact iff_of_eq (congrArg (· = 0) (Nat.and_one_is_mod w.toNat))

private theorem land_7 (n : Nat) : n &&& 7 = n % 8 := Nat.and_two_pow_sub_one_eq_mod n 3

private theorem land_15 (n : Nat) : n &&& 15 = n % 16 := Nat.and_two_pow_sub_one_eq_mod n 4

private theorem land_byte (n : Nat) : n &&& 255 = n % 256 := Nat.and_two_pow_sub_one_eq_mod n 8

private theorem land_2047 (n : Nat) : n &&& 2047 = n % 2048 := Nat.and_two_pow_sub_one_eq_mod n 11

/-- Joining a shifted field with what fits below it is adding them. -/
private theorem shift_or {a b : Nat} (i : Nat) (h : b < 2 ^ i) : a <<< i ||| b = a * 2 ^ i + b := by
  rw [← Nat.shiftLeft_add_eq_or_of_lt h, Nat.shiftLeft_eq]

/-! ## Fields of a decoded word -/

theorem RvmReg.ofBits_val (w : Word) : (RvmReg.ofBits w).val = w.toNat % 8 := by
  show (w &&& 0x7).toNat % 8 = _
  rw [BitVec.toNat_and]
  show (w.toNat &&& 7) % 8 = _
  rw [land_7]
  omega

theorem RvmMode.ofBit_code (w : Word) : (RvmMode.ofBit w).code = w.toNat % 2 := by
  unfold RvmMode.ofBit
  have bit := land_one w
  split
  · next h => exact (bit.mp h).symm
  · next h =>
    have : w.toNat % 2 ≠ 0 := fun e => h (bit.mpr e)
    show 1 = _
    omega

/-- The mode a bit selects, from the bit. -/
theorem RvmMode.ofBit_eq_of_code {w : Word} {mode : RvmMode} (h : w.toNat % 2 = mode.code) :
    RvmMode.ofBit w = mode := by
  have := RvmMode.ofBit_code w
  cases hm : RvmMode.ofBit w <;> cases mode <;> simp_all [RvmMode.code]

private theorem ushiftRight_toNat (w : Word) (i : Nat) : (w >>> i).toNat = w.toNat / 2 ^ i := by
  rw [BitVec.toNat_ushiftRight, Nat.shiftRight_eq_div_pow]

theorem rvmDecode_opcode (w : Word) : (rvmDecode w).opcode = w.toNat / 4096 := by
  have := w.isLt
  show ((w >>> 12) &&& 0xF).toNat = _
  rw [BitVec.toNat_and, ushiftRight_toNat]
  show w.toNat / 4096 &&& 15 = _
  rw [land_15]
  omega

theorem rvmDecode_reg (w : Word) : (rvmDecode w).reg.val = w.toNat / 512 % 8 := by
  show (RvmReg.ofBits (w >>> 9)).val = _
  rw [RvmReg.ofBits_val, ushiftRight_toNat]
  rfl

theorem rvmDecode_operand (w : Word) : (rvmDecode w).operand.toNat = w.toNat % 256 := by
  show ((w &&& 0xFF).setWidth 8).toNat = _
  rw [BitVec.toNat_setWidth, BitVec.toNat_and]
  show (w.toNat &&& 255) % 256 = _
  rw [land_byte]
  omega

/-- The four opcode bits always name an enumerator. -/
theorem rvmDecode_opcode_code (w : Word) : ∃ op : RvmOpcode, (rvmDecode w).opcode = op.code := by
  have := w.isLt
  obtain ⟨op, hop⟩ := RvmOpcode.exists_code (n := w.toNat / 4096) (by omega)
  exact ⟨op, by rw [rvmDecode_opcode, hop]⟩

/-! ## Format A and B words -/

theorem rvmEncode_toNat (op : RvmOpcode) (reg : RvmReg) (mode : RvmMode) (operand : Byte) :
    (rvmEncode op reg mode operand).toNat =
      op.code * 4096 + reg.val * 512 + mode.code * 256 + operand.toNat := by
  have hop := op.code_lt
  have hreg := reg.isLt
  have hmode := mode.code_lt
  have hopr := operand.isLt
  have fields : (rvmEncode op reg mode operand).toNat =
      op.code <<< 12 ||| (reg.val <<< 9 ||| (mode.code <<< 8 ||| operand.toNat)) := by
    have m1 : mode.code &&& 1 = mode.code := by
      rw [Nat.and_one_is_mod, Nat.mod_eq_of_lt hmode]
    have low : operand.toNat &&& (0xFF : Byte).toNat = operand.toNat := by
      show operand.toNat &&& 255 = _
      rw [land_byte]
      omega
    simp only [rvmEncode, BitVec.toNat_or, BitVec.toNat_shiftLeft, BitVec.toNat_ofNat,
      BitVec.toNat_setWidth, BitVec.toNat_and, land_15, land_7, m1, low, Nat.or_assoc,
      Nat.shiftLeft_eq]
    congr 1
    · omega
    · congr 1
      · omega
      · congr 1 <;> omega
  rw [fields, shift_or 8 (by omega), shift_or 9 (by omega), shift_or 12 (by omega)]
  omega

/-- Decoding gives back what was encoded. -/
theorem rvmDecode_rvmEncode (op : RvmOpcode) (reg : RvmReg) (mode : RvmMode) (operand : Byte) :
    rvmDecode (rvmEncode op reg mode operand) =
      { raw := rvmEncode op reg mode operand, opcode := op.code, reg, mode, operand } := by
  have hw := rvmEncode_toNat op reg mode operand
  have hop := op.code_lt
  have hreg := reg.isLt
  have hmode := mode.code_lt
  have hopr := operand.isLt
  generalize rvmEncode op reg mode operand = w at hw
  have opcode := rvmDecode_opcode w
  have operand' := rvmDecode_operand w
  have reg' := rvmDecode_reg w
  have mode' : RvmMode.ofBit (w >>> 8) = mode :=
    RvmMode.ofBit_eq_of_code (by rw [ushiftRight_toNat]; omega)
  refine RvmInstr.mk.injEq .. |>.mpr ⟨rfl, ?_, ?_, mode', ?_⟩
  · exact opcode.trans (by omega)
  · exact Fin.ext (reg'.trans (by omega))
  · exact BitVec.eq_of_toNat_eq (operand'.trans (by omega))

/-! ## Format C words -/

theorem ctrlImm_toNat (op : RvmOpcode) (text : String) (simm : BitVec 16) :
    (ctrlImm op text simm).val.toNat = op.code * 4096 + simm.toNat % 2048 := by
  have hop := op.code_lt
  have fields : (ctrlImm op text simm).val.toNat = op.code <<< 12 ||| simm.toNat % 2048 := by
    show ((BitVec.ofNat 16 (op.code &&& 0xF) <<< 12) ||| (BitVec.ofNat 16 0 <<< 11) |||
      (simm &&& 0x7FF)).toNat = _
    have low : simm.toNat &&& (0x7FF : Word).toNat = simm.toNat % 2048 := land_2047 _
    simp only [BitVec.toNat_or, BitVec.toNat_shiftLeft, BitVec.toNat_ofNat, BitVec.toNat_and,
      land_15, low, Nat.zero_mod, Nat.zero_mul, Nat.or_zero, Nat.shiftLeft_eq]
    congr 1
    omega
  rw [fields, shift_or 12 (by omega)]
  rfl

theorem ctrlReg_toNat (op : RvmOpcode) (rvd : RvmReg) :
    (ctrlReg op rvd).toNat = op.code * 4096 + 2048 + rvd.val := by
  have hop := op.code_lt
  have hreg := rvd.isLt
  have fields : (ctrlReg op rvd).toNat = op.code <<< 12 ||| (1 <<< 11 ||| rvd.val) := by
    show ((BitVec.ofNat 16 (op.code &&& 0xF) <<< 12) ||| (BitVec.ofNat 16 1 <<< 11) |||
      BitVec.ofNat 16 (rvd.val &&& 0x7)).toNat = _
    simp only [BitVec.toNat_or, BitVec.toNat_shiftLeft, BitVec.toNat_ofNat, land_15, land_7,
      Nat.or_assoc, Nat.shiftLeft_eq]
    congr 1
    · omega
    · congr 1
      omega
  rw [fields, shift_or 11 (by omega), shift_or 12 (by omega)]
  omega

end RocketVm
