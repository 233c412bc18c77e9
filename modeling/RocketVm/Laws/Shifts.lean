import RocketVm.Laws.Arithmetic

/-!
# Shifts

What SHL and SHR write and what their flags say of it. SHL by zero leaves before it touches a flag,
so its flags are those of an earlier instruction unless they happened to fit (`shifts_exact`).
-/

namespace RocketVm

open Lib

/-! ## Bits -/

theorem shift_amount (s : Word) : (s &&& 0xF).toNat = s.toNat % 16 := by
  rw [BitVec.toNat_and]
  exact Nat.and_two_pow_sub_one_eq_mod s.toNat 4

/-- The test for the last bit shifted out. -/
theorem bit_out (d : Word) (i : Nat) : (d >>> i &&& 1 != 0) = d.getLsbD i := by
  rw [show (1 : Word) = BitVec.twoPow 16 0 from rfl, BitVec.and_twoPow, BitVec.getLsbD_ushiftRight,
    Nat.add_zero]
  cases d.getLsbD i <;> rfl

/-- A word shifted to the left, in the 32 bits of `uint32_t`, cut to its low half. -/
theorem shifted_toNat (d : Word) (k : Nat) :
    (low16 (BitVec.ofInt 32 ((d.toNat : Int) * 2 ^ k) &&& 0xFFFF)).toNat =
      d.toNat * 2 ^ k % 2 ^ 16 := by
  have natural : ((d.toNat : Int) * 2 ^ k) = ((d.toNat * 2 ^ k : Nat) : Int) := by
    rw [Int.natCast_mul, Int.natCast_pow]
    rfl
  have low : ∀ n : Nat, n &&& 65535 = n % 2 ^ 16 := fun n =>
    Nat.and_two_pow_sub_one_eq_mod n 16
  rw [low16_toNat, BitVec.toNat_and, natural, BitVec.ofInt_natCast, BitVec.toNat_ofNat]
  show (d.toNat * 2 ^ k % 2 ^ 32 &&& 65535) % 2 ^ 16 = _
  rw [low, Nat.mod_mod, Nat.mod_mod_of_dvd _ (Nat.pow_dvd_pow 2 (by decide))]

/-- A word shifted to the right. -/
theorem shiftedRight_toNat (d : Word) (k : Nat) :
    (low16 ((d >>> k).setWidth 32)).toNat = d.toNat / 2 ^ k := by
  have small := (d >>> k).isLt
  rw [low16_toNat, BitVec.toNat_setWidth]
  have value : (d >>> k).toNat = d.toNat / 2 ^ k := by
    rw [BitVec.toNat_ushiftRight, Nat.shiftRight_eq_div_pow]
  omega

/-! ## SHL and SHR -/

/-- `v` is the exact result of a shift; RZ and RN speak of it, and RC says whether the last bit
shifted out is set. -/
structure Shifts (cpu : RvmCpu) (v : Word) (exact : Nat) (lastOut : Prop) : Prop where
  value : v.toNat = exact
  result : Describes cpu v
  carry : cpu.flagCheck RVM_CPU_FLAG_RC = true ↔ lastOut

/-- The flags are those that a shift of `d` by zero leaves. -/
structure FlagsFit (cpu : RvmCpu) (d : Word) : Prop where
  result : Describes cpu d
  carry : cpu.flagCheck RVM_CPU_FLAG_RC = false

theorem shlTo_zero (cpu : RvmCpu) (rvd : RvmReg) {s : Word} (zero : s.toNat % 16 = 0) :
    (shlTo cpu rvd s).val = cpu := by
  unfold shlTo
  rw [shift_amount, zero]
  rfl

theorem shlTo_val (cpu : RvmCpu) (rvd : RvmReg) {s : Word} (nonzero : s.toNat % 16 ≠ 0) :
    ∃ overflow, (shlTo cpu rvd s).val =
      let result :=
        BitVec.ofInt 32 (((cpu.regs.rv rvd).toNat : Int) * 2 ^ (s.toNat % 16)) &&& 0xFFFF
      (cpu.setArithmetic result (cpu.regs.rv rvd >>> (16 - s.toNat % 16) &&& 1 != 0)
        overflow).setRv rvd (low16 result) := by
  unfold shlTo
  rw [shift_amount]
  dsimp only
  rw [if_neg nonzero]
  exact ⟨_, rfl⟩

theorem shlTo_shifts (cpu : RvmCpu) (rvd : RvmReg) {s : Word} (nonzero : s.toNat % 16 ≠ 0) :
    Shifts (shlTo cpu rvd s).val ((shlTo cpu rvd s).val.regs.rv rvd)
      ((cpu.regs.rv rvd).toNat * 2 ^ (s.toNat % 16) % 2 ^ 16)
      (0 < s.toNat % 16 ∧ (cpu.regs.rv rvd).getLsbD (16 - s.toNat % 16) = true) := by
  have value := shifted_toNat (cpu.regs.rv rvd) (s.toNat % 16)
  obtain ⟨overflow, same⟩ := shlTo_val cpu rvd nonzero
  rw [same]
  dsimp only
  obtain ⟨describes, carry, _⟩ := flags_arithmetic cpu
    (BitVec.ofInt 32 (((cpu.regs.rv rvd).toNat : Int) * 2 ^ (s.toNat % 16)) &&& 0xFFFF)
    (cpu.regs.rv rvd >>> (16 - s.toNat % 16) &&& 1 != 0) overflow
  rw [RvmCpu.setRv_same]
  refine ⟨value, describes.setRv _ _, ?_⟩
  rw [flagCheck_setRv, carry, bit_out, and_iff_right (Nat.pos_of_ne_zero nonzero)]

/-- The state of SHR before it looks at the last bit shifted out. -/
def RvmCpu.shrFlags (cpu : RvmCpu) (d : Word) (k : Nat) : RvmCpu :=
  (cpu.flagClear (RVM_CPU_FLAG_RZ ||| RVM_CPU_FLAG_RN ||| RVM_CPU_FLAG_RC)).setZeroNegative
    ((d >>> k).setWidth 32)

theorem shrTo_val (cpu : RvmCpu) (rvd : RvmReg) (s : Word) :
    (shrTo cpu rvd s).val =
      let d := cpu.regs.rv rvd
      let k := s.toNat % 16
      (((cpu.shrFlags d k).flagSetIf (decide (k ≠ 0) && d >>> (k - 1) &&& 1 != 0)
        RVM_CPU_FLAG_RC).setRv rvd (low16 ((d >>> k).setWidth 32))) := by
  unfold shrTo
  rw [shift_amount]
  generalize s.toNat % 16 = k
  by_cases zero : k = 0
  · subst zero
    rfl
  · simp only [zero, ↓reduceIte, ne_eq, not_false_eq_true, decide_true, Bool.true_and]
    rfl

theorem shrTo_shifts (cpu : RvmCpu) (rvd : RvmReg) (s : Word) :
    Shifts (shrTo cpu rvd s).val ((shrTo cpu rvd s).val.regs.rv rvd)
      ((cpu.regs.rv rvd).toNat / 2 ^ (s.toNat % 16))
      (0 < s.toNat % 16 ∧ (cpu.regs.rv rvd).getLsbD (s.toNat % 16 - 1) = true) := by
  rw [shrTo_val]
  dsimp only
  rw [RvmCpu.setRv_same]
  generalize cpu.regs.rv rvd = d, s.toNat % 16 = k
  refine ⟨shiftedRight_toNat d k, ?_, ?_⟩
  · exact ((describes_setZeroNegative cpu _ (by decide) (by decide)).flagSetIf _ (by decide)
      (by decide)).setRv _ _
  · have cleared : (cpu.shrFlags d k).flagCheck RVM_CPU_FLAG_RC = false := by
      rw [RvmCpu.shrFlags, flagCheck_setZeroNegative _ _ (by decide) (by decide),
        flagCheck_cleared (by decide)]
    rw [flagCheck_setRv, flagCheck_flagSetIf_same _ (by decide), cleared, Bool.false_or,
      Bool.and_eq_true, decide_eq_true_eq, bit_out, Nat.pos_iff_ne_zero]

/-- Nothing is shifted by zero: the right result is the value itself, with flags that fit it. -/
theorem shifts_zero_iff {cpu : RvmCpu} {d : Word} {exact : Nat} {bit : Prop}
    (same : d.toNat = exact) : Shifts cpu d exact (0 < 0 ∧ bit) ↔ FlagsFit cpu d := by
  constructor
  · rintro ⟨_, result, carry⟩
    refine ⟨result, Bool.eq_false_iff.mpr fun set => ?_⟩
    exact Nat.lt_irrefl 0 (carry.mp set).1
  · rintro ⟨result, carry⟩
    refine ⟨same, result, ?_⟩
    rw [carry]
    exact iff_of_false Bool.false_ne_true fun both => Nat.lt_irrefl 0 both.1

/-- Two machines whose flags fit one value agree on RZ, RN and RC. -/
theorem flagsFit_iff {cpu cpu' : RvmCpu} {d : Word} (fit : FlagsFit cpu' d) :
    (cpu.flagCheck RVM_CPU_FLAG_RZ = cpu'.flagCheck RVM_CPU_FLAG_RZ ∧
      cpu.flagCheck RVM_CPU_FLAG_RN = cpu'.flagCheck RVM_CPU_FLAG_RN ∧
      cpu.flagCheck RVM_CPU_FLAG_RC = cpu'.flagCheck RVM_CPU_FLAG_RC) ↔ FlagsFit cpu d := by
  obtain ⟨⟨zero, negative⟩, carry⟩ := fit
  have rz : cpu.flagCheck RVM_CPU_FLAG_RZ = cpu'.flagCheck RVM_CPU_FLAG_RZ ↔
      (cpu.flagCheck RVM_CPU_FLAG_RZ = true ↔ d.toNat = 0) := by
    rw [Bool.eq_iff_iff, zero]
  have rn : cpu.flagCheck RVM_CPU_FLAG_RN = cpu'.flagCheck RVM_CPU_FLAG_RN ↔
      (cpu.flagCheck RVM_CPU_FLAG_RN = true ↔ d.getLsbD 15 = true) := by
    rw [Bool.eq_iff_iff, negative]
  rw [rz, rn, carry]
  constructor
  · rintro ⟨zero', negative', carry'⟩
    exact ⟨⟨zero', negative'⟩, carry'⟩
  · rintro ⟨⟨zero', negative'⟩, carry'⟩
    exact ⟨zero', negative', carry'⟩

/-- **Shifts.** SHR always writes the exact result with flags that describe it. SHL does if and only
if it shifts by more than zero, or the flags it finds already fit the value; by zero, it leaves the
RZ, RN and RC of SHR in that case alone. -/
theorem shifts_exact (cpu : RvmCpu) (mem : RvmMemory) (rvd : RvmReg) (s : Word) :
    (∀ w, Operates cpu .shr rvd s w →
      Shifts (cpu.execute mem w).1 ((cpu.execute mem w).1.regs.rv rvd)
        ((cpu.regs.rv rvd).toNat / 2 ^ (s.toNat % 16))
        (0 < s.toNat % 16 ∧ (cpu.regs.rv rvd).getLsbD (s.toNat % 16 - 1) = true)) ∧
    (∀ w, Operates cpu .shl rvd s w →
      (Shifts (cpu.execute mem w).1 ((cpu.execute mem w).1.regs.rv rvd)
        ((cpu.regs.rv rvd).toNat * 2 ^ (s.toNat % 16) % 2 ^ 16)
        (0 < s.toNat % 16 ∧ (cpu.regs.rv rvd).getLsbD (16 - s.toNat % 16) = true) ↔
      s.toNat % 16 ≠ 0 ∨ FlagsFit cpu (cpu.regs.rv rvd))) ∧
    (s.toNat % 16 = 0 → ∀ w w', Operates cpu .shl rvd s w → Operates cpu .shr rvd s w' →
      (((cpu.execute mem w).1.flagCheck RVM_CPU_FLAG_RZ =
          (cpu.execute mem w').1.flagCheck RVM_CPU_FLAG_RZ ∧
        (cpu.execute mem w).1.flagCheck RVM_CPU_FLAG_RN =
          (cpu.execute mem w').1.flagCheck RVM_CPU_FLAG_RN ∧
        (cpu.execute mem w).1.flagCheck RVM_CPU_FLAG_RC =
          (cpu.execute mem w').1.flagCheck RVM_CPU_FLAG_RC) ↔
      FlagsFit cpu (cpu.regs.rv rvd))) := by
  have right : ∀ w, Operates cpu .shr rvd s w → cpu.execute mem w = ((shrTo cpu rvd s).val, mem) :=
    fun w h => h.execute mem rfl
  have left : ∀ w, Operates cpu .shl rvd s w → cpu.execute mem w = ((shlTo cpu rvd s).val, mem) :=
    fun w h => h.execute mem rfl
  refine ⟨fun w h => ?_, fun w h => ?_, fun zero w w' h h' => ?_⟩
  · rw [right w h]
    exact shrTo_shifts cpu rvd s
  · rw [left w h]
    by_cases zero : s.toNat % 16 = 0
    · rw [shlTo_zero cpu rvd zero, zero, or_iff_right (not_not.mpr rfl), Nat.pow_zero,
        Nat.mul_one, Nat.mod_eq_of_lt (cpu.regs.rv rvd).isLt]
      exact shifts_zero_iff rfl
    · exact iff_of_true (shlTo_shifts cpu rvd zero) (.inl zero)
  · have shifts := shrTo_shifts cpu rvd s
    rw [zero, Nat.pow_zero, Nat.div_one] at shifts
    rw [BitVec.eq_of_toNat_eq shifts.value] at shifts
    rw [left w h, right w' h', shlTo_zero cpu rvd zero]
    exact flagsFit_iff ((shifts_zero_iff rfl).mp shifts)

/-- `SHL rv0, 0` on a fresh CPU writes zero and leaves RZ clear. -/
theorem shl_by_zero_keeps_flags :
    ¬ ∀ (cpu : RvmCpu) (mem : RvmMemory) (rvd : RvmReg) (s w : Word), Operates cpu .shl rvd s w →
      Shifts (cpu.execute mem w).1 ((cpu.execute mem w).1.regs.rv rvd)
        ((cpu.regs.rv rvd).toNat * 2 ^ (s.toNat % 16) % 2 ^ 16)
        (0 < s.toNat % 16 ∧ (cpu.regs.rv rvd).getLsbD (16 - s.toNat % 16) = true) := by
  intro all
  have operates : Operates freshVm.cpu .shl 0 0 0x8000 := ⟨by decide, by decide, by decide⟩
  have zero := (all freshVm.cpu freshVm.mem 0 0 0x8000 operates).result.zero
  exact absurd (zero.mpr (by decide)) (by decide)

end RocketVm
