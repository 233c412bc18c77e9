import RocketVm.Laws.Vm

/-!
# Arithmetic

The results and flags of ADD, SUB, CMP, DIV and MOD in terms of integers. Each update has a rule
that says what `flagCheck` answers behind it; `Describes`, `Sums` and `Subtracts` are what the
handlers leave, and `arithmetic_exact` puts them together for the words of the five opcodes.
-/

namespace RocketVm

open Lib

/-! ## Flags -/

section Flags

variable {cpu : RvmCpu} {f g : Word}

theorem flagCheck_zero (cpu : RvmCpu) : cpu.flagCheck 0 = false := by
  show (cpu.regs.flags &&& 0#16 != 0) = false
  rw [BitVec.and_zero]
  rfl

theorem flagCheck_flagSetIf (cpu : RvmCpu) (c : Bool) (f g : Word) :
    (cpu.flagSetIf c f).flagCheck g = (cpu.flagCheck g || (c && f &&& g != 0)) := by
  cases c with
  | false =>
    rw [Bool.false_and, Bool.or_false]
    rfl
  | true =>
    show ((cpu.regs.flags ||| f) &&& g != 0) = (cpu.flagCheck g || (true && f &&& g != 0))
    rw [Bool.true_and, RvmCpu.flagCheck, BitVec.and_or_distrib_right, Bool.eq_iff_iff,
      Bool.or_eq_true, bne_iff_ne, bne_iff_ne, bne_iff_ne, ← not_and_or, ne_eq, not_iff_not]
    exact BitVec.or_eq_zero_iff

/-- A conditional update of the flag that is looked at. -/
theorem flagCheck_flagSetIf_same (c : Bool) (some_ : f &&& f ≠ 0) :
    (cpu.flagSetIf c f).flagCheck f = (cpu.flagCheck f || c) := by
  rw [flagCheck_flagSetIf, bne_iff_ne.mpr some_, Bool.and_true]

/-- A conditional update of another flag. -/
theorem flagCheck_flagSetIf_other (c : Bool) (apart : f &&& g = 0) :
    (cpu.flagSetIf c f).flagCheck g = cpu.flagCheck g := by
  rw [flagCheck_flagSetIf, apart, bne_self_eq_false, Bool.and_false, Bool.or_false]

theorem flagCheck_flagClear (cpu : RvmCpu) (f g : Word) :
    (cpu.flagClear f).flagCheck g = cpu.flagCheck (~~~f &&& g) := by
  show (cpu.regs.flags &&& ~~~f &&& g != 0) = _
  rw [BitVec.and_assoc]
  rfl

theorem flagCheck_cleared (inside : ~~~f &&& g = 0) : (cpu.flagClear f).flagCheck g = false := by
  rw [flagCheck_flagClear, inside, flagCheck_zero]

theorem flagCheck_kept (outside : ~~~f &&& g = g) :
    (cpu.flagClear f).flagCheck g = cpu.flagCheck g := by
  rw [flagCheck_flagClear, outside]

end Flags

/-! ## Values -/

/-- The test for a sign bit. -/
theorem sign_bit (w : Word) : (w &&& 0x8000 != 0) = w.getLsbD 15 := by
  rw [show (0x8000 : Word) = BitVec.twoPow 16 15 from rfl, BitVec.and_twoPow]
  cases w.getLsbD 15 <;> rfl

theorem sign_bit_iff {w : Word} : w.getLsbD 15 = true ↔ 0x8000 ≤ w.toNat := by
  rw [← BitVec.msb_eq_getLsbD_last, BitVec.msb_eq_decide, decide_eq_true_eq]

/-- A number of two's complement, by its sign bit. -/
theorem toInt_word (w : Word) :
    (w.toNat < 0x8000 ∧ w.toInt = w.toNat) ∨
      (0x8000 ≤ w.toNat ∧ w.toNat < 0x10000 ∧ w.toInt = w.toNat - 0x10000) := by
  have := w.isLt
  rw [BitVec.toInt_eq_toNat_cond]
  split <;> omega

/-- Whether two sign bits differ. -/
theorem signs_differ {a b : Word} :
    (a ^^^ b).getLsbD 15 = true ↔ ¬ (0x8000 ≤ a.toNat ↔ 0x8000 ≤ b.toNat) := by
  rw [← sign_bit_iff, ← sign_bit_iff, BitVec.getLsbD_xor]
  cases a.getLsbD 15 <;> cases b.getLsbD 15 <;> decide

theorem low16_toNat (result : BitVec 32) : (low16 result).toNat = result.toNat % 2 ^ 16 :=
  BitVec.toNat_setWidth ..

/-- The test of the low half of a result for zero. -/
theorem low_zero (result : BitVec 32) :
    (result &&& 0xFFFF == 0) = true ↔ (low16 result).toNat = 0 := by
  rw [beq_iff_eq, low16_toNat, ← BitVec.toNat_inj, BitVec.toNat_and]
  show result.toNat &&& 65535 = 0 ↔ _
  rw [Nat.and_two_pow_sub_one_eq_mod result.toNat 16]

/-- RZ and RN speak of a value: whether it is zero, and whether its bit 15 is set. -/
structure Describes (cpu : RvmCpu) (v : Word) : Prop where
  zero : cpu.flagCheck RVM_CPU_FLAG_RZ = true ↔ v.toNat = 0
  negative : cpu.flagCheck RVM_CPU_FLAG_RN = true ↔ v.getLsbD 15 = true

/-- RZ and RN after the update that every arithmetic handler makes. -/
theorem describes_setZeroNegative (cpu : RvmCpu) (result : BitVec 32) {f : Word}
    (zero : ~~~f &&& RVM_CPU_FLAG_RZ = 0) (negative : ~~~f &&& RVM_CPU_FLAG_RN = 0) :
    Describes ((cpu.flagClear f).setZeroNegative result) (low16 result) := by
  constructor
  · rw [RvmCpu.setZeroNegative, flagCheck_flagSetIf_other _ (by decide),
      flagCheck_flagSetIf_same _ (by decide), flagCheck_cleared zero, Bool.false_or, low_zero]
  · rw [RvmCpu.setZeroNegative, flagCheck_flagSetIf_same _ (by decide),
      flagCheck_flagSetIf_other _ (by decide), flagCheck_cleared negative, Bool.false_or, sign_bit]

/-- Neither an update of RC or RO nor a write of a register changes RZ and RN. -/
theorem Describes.flagSetIf {cpu : RvmCpu} {v f : Word} (h : Describes cpu v) (c : Bool)
    (zero : f &&& RVM_CPU_FLAG_RZ = 0) (negative : f &&& RVM_CPU_FLAG_RN = 0) :
    Describes (cpu.flagSetIf c f) v := by
  constructor
  · rw [flagCheck_flagSetIf_other c zero]
    exact h.zero
  · rw [flagCheck_flagSetIf_other c negative]
    exact h.negative

/-- RC and RO after the update that follows. -/
theorem flagCheck_carry_overflow {cpu : RvmCpu} (carry overflow : Bool)
    (noCarry : cpu.flagCheck RVM_CPU_FLAG_RC = false)
    (noOverflow : cpu.flagCheck RVM_CPU_FLAG_RO = false) :
    ((cpu.flagSetIf carry RVM_CPU_FLAG_RC).flagSetIf overflow RVM_CPU_FLAG_RO).flagCheck
        RVM_CPU_FLAG_RC = carry ∧
      ((cpu.flagSetIf carry RVM_CPU_FLAG_RC).flagSetIf overflow RVM_CPU_FLAG_RO).flagCheck
        RVM_CPU_FLAG_RO = overflow := by
  constructor
  · rw [flagCheck_flagSetIf_other _ (by decide), flagCheck_flagSetIf_same _ (by decide), noCarry,
      Bool.false_or]
  · rw [flagCheck_flagSetIf_same _ (by decide), flagCheck_flagSetIf_other _ (by decide),
      noOverflow, Bool.false_or]

/-- The update of RZ and RN leaves the other flags. -/
theorem flagCheck_setZeroNegative (cpu : RvmCpu) (result : BitVec 32) {g : Word}
    (zero : RVM_CPU_FLAG_RZ &&& g = 0) (negative : RVM_CPU_FLAG_RN &&& g = 0) :
    (cpu.setZeroNegative result).flagCheck g = cpu.flagCheck g := by
  rw [RvmCpu.setZeroNegative, flagCheck_flagSetIf_other _ negative,
    flagCheck_flagSetIf_other _ zero]

/-- The flag updates that ADD, SUB, CMP, MUL and SHL share. -/
def RvmCpu.setArithmetic (cpu : RvmCpu) (result : BitVec 32) (carry overflow : Bool) : RvmCpu :=
  (((cpu.flagClear flagsAll).setZeroNegative result).flagSetIf carry RVM_CPU_FLAG_RC).flagSetIf
    overflow RVM_CPU_FLAG_RO

theorem flags_arithmetic (cpu : RvmCpu) (result : BitVec 32) (carry overflow : Bool) :
    Describes (cpu.setArithmetic result carry overflow) (low16 result) ∧
      (cpu.setArithmetic result carry overflow).flagCheck RVM_CPU_FLAG_RC = carry ∧
      (cpu.setArithmetic result carry overflow).flagCheck RVM_CPU_FLAG_RO = overflow := by
  refine ⟨?_, flagCheck_carry_overflow carry overflow ?_ ?_⟩
  · exact ((describes_setZeroNegative cpu result (by decide) (by decide)).flagSetIf _ (by decide)
      (by decide)).flagSetIf _ (by decide) (by decide)
  · rw [flagCheck_setZeroNegative _ _ (by decide) (by decide), flagCheck_cleared (by decide)]
  · rw [flagCheck_setZeroNegative _ _ (by decide) (by decide), flagCheck_cleared (by decide)]

/-! ## ADD, SUB and CMP -/

/-- `v` is the sum of `d` and `s`, and the flags say how it was reached. -/
structure Sums (cpu : RvmCpu) (v d s : Word) : Prop where
  value : v.toNat = (d.toNat + s.toNat) % 2 ^ 16
  result : Describes cpu v
  carry : cpu.flagCheck RVM_CPU_FLAG_RC = true ↔ 65535 < d.toNat + s.toNat
  overflow : cpu.flagCheck RVM_CPU_FLAG_RO = true ↔
    ¬ (-32768 ≤ d.toInt + s.toInt ∧ d.toInt + s.toInt ≤ 32767)

/-- `v` is the difference of `d` and `s`, and the flags say how it was reached. -/
structure Subtracts (cpu : RvmCpu) (v d s : Word) : Prop where
  value : (v.toNat : Int) = ((d.toNat : Int) - s.toNat) % 2 ^ 16
  result : Describes cpu v
  borrow : cpu.flagCheck RVM_CPU_FLAG_RC = true ↔ d.toNat < s.toNat
  overflow : cpu.flagCheck RVM_CPU_FLAG_RO = true ↔
    ¬ (-32768 ≤ d.toInt - s.toInt ∧ d.toInt - s.toInt ≤ 32767)

/-- The sum of two words, in the 32 bits of `uint32_t`. -/
theorem sum_toNat (d s : Word) :
    (BitVec.ofInt 32 ((d.toNat : Int) + s.toNat)).toNat = d.toNat + s.toNat := by
  have := d.isLt
  have := s.isLt
  rw [BitVec.toNat_ofInt]
  omega

/-- The low half of a difference of two words. -/
theorem difference_toNat (d s : Word) :
    ((low16 (BitVec.ofInt 32 ((d.toNat : Int) - s.toNat))).toNat : Int) =
      ((d.toNat : Int) - s.toNat) % 2 ^ 16 := by
  rw [low16_toNat, BitVec.toNat_ofInt]
  omega

/-- The overflow of a sum, from three sign bits. -/
theorem sum_overflow {d s v : Word} (value : v.toNat = (d.toNat + s.toNat) % 2 ^ 16) :
    ((d ^^^ v) &&& (s ^^^ v) &&& 0x8000 != 0) = true ↔
      ¬ (-32768 ≤ d.toInt + s.toInt ∧ d.toInt + s.toInt ≤ 32767) := by
  have := toInt_word d
  have := toInt_word s
  rw [sign_bit, BitVec.getLsbD_and, Bool.and_eq_true, signs_differ, signs_differ]
  omega

/-- The overflow of a difference, from three sign bits. -/
theorem difference_overflow {d s v : Word}
    (value : (v.toNat : Int) = ((d.toNat : Int) - s.toNat) % 2 ^ 16) :
    ((d ^^^ s) &&& (d ^^^ v) &&& 0x8000 != 0) = true ↔
      ¬ (-32768 ≤ d.toInt - s.toInt ∧ d.toInt - s.toInt ≤ 32767) := by
  have := toInt_word d
  have := toInt_word s
  rw [sign_bit, BitVec.getLsbD_and, Bool.and_eq_true, signs_differ, signs_differ]
  omega

theorem addTo_val (cpu : RvmCpu) (rvd : RvmReg) (s : Word) :
    (addTo cpu rvd s).val =
      let result := BitVec.ofInt 32 (((cpu.regs.rv rvd).toNat : Int) + s.toNat)
      (cpu.setArithmetic result (decide (result > 0xFFFF))
        ((cpu.regs.rv rvd ^^^ low16 result) &&& (s ^^^ low16 result) &&& 0x8000 != 0)).setRv rvd
        (low16 result) := rfl

theorem subtract_val (cpu : RvmCpu) (d s : Word) :
    (subtract cpu d s).val =
      let result := BitVec.ofInt 32 ((d.toNat : Int) - s.toNat)
      (cpu.setArithmetic result (decide (d < s))
        ((d ^^^ s) &&& (d ^^^ low16 result) &&& 0x8000 != 0), result) := rfl

/-- A write of a register leaves the flags. -/
theorem flagCheck_setRv (cpu : RvmCpu) (r : RvmReg) (w f : Word) :
    (cpu.setRv r w).flagCheck f = cpu.flagCheck f := rfl

theorem Describes.setRv {cpu : RvmCpu} {v : Word} (h : Describes cpu v) (r : RvmReg) (w : Word) :
    Describes (cpu.setRv r w) v := ⟨h.zero, h.negative⟩

theorem RvmCpu.setRv_same (cpu : RvmCpu) (r : RvmReg) (v : Word) :
    (cpu.setRv r v).regs.rv r = v := if_pos rfl

theorem addTo_sums (cpu : RvmCpu) (rvd : RvmReg) (s : Word) :
    Sums (addTo cpu rvd s).val ((addTo cpu rvd s).val.regs.rv rvd) (cpu.regs.rv rvd) s := by
  rw [addTo_val]
  have sum := sum_toNat (cpu.regs.rv rvd) s
  generalize BitVec.ofInt 32 (((cpu.regs.rv rvd).toNat : Int) + s.toNat) = result at sum
  obtain ⟨describes, carry, overflow⟩ := flags_arithmetic cpu result (decide (result > 0xFFFF))
    ((cpu.regs.rv rvd ^^^ low16 result) &&& (s ^^^ low16 result) &&& 0x8000 != 0)
  have value : (low16 result).toNat = ((cpu.regs.rv rvd).toNat + s.toNat) % 2 ^ 16 := by
    rw [low16_toNat, sum]
  dsimp only
  rw [RvmCpu.setRv_same]
  refine ⟨value, describes.setRv _ _, ?_, ?_⟩
  · rw [flagCheck_setRv, carry, decide_eq_true_eq, gt_iff_lt, BitVec.lt_def, sum]
    rfl
  · rw [flagCheck_setRv, overflow]
    exact sum_overflow value

/-- What SUB and CMP do alike. -/
theorem subtract_subtracts (cpu : RvmCpu) (d s : Word) :
    Subtracts (subtract cpu d s).val.1 (low16 (subtract cpu d s).val.2) d s := by
  rw [subtract_val]
  have value := difference_toNat d s
  generalize BitVec.ofInt 32 ((d.toNat : Int) - s.toNat) = result at value
  obtain ⟨describes, borrow, overflow⟩ := flags_arithmetic cpu result (decide (d < s))
    ((d ^^^ s) &&& (d ^^^ low16 result) &&& 0x8000 != 0)
  refine ⟨value, describes, ?_, ?_⟩
  · dsimp only
    rw [borrow, decide_eq_true_eq, BitVec.lt_def]
  · dsimp only
    rw [overflow]
    exact difference_overflow value

theorem subTo_subtracts (cpu : RvmCpu) (rvd : RvmReg) (s : Word) :
    Subtracts (subTo cpu rvd s).val ((subTo cpu rvd s).val.regs.rv rvd) (cpu.regs.rv rvd) s := by
  obtain ⟨value, result, borrow, overflow⟩ := subtract_subtracts cpu (cpu.regs.rv rvd) s
  show Subtracts ((subtract cpu (cpu.regs.rv rvd) s).val.1.setRv rvd
    (low16 (subtract cpu (cpu.regs.rv rvd) s).val.2)) _ _ _
  have written : (subTo cpu rvd s).val.regs.rv rvd =
      low16 (subtract cpu (cpu.regs.rv rvd) s).val.2 := RvmCpu.setRv_same _ _ _
  rw [written]
  exact ⟨value, result.setRv _ _, borrow, overflow⟩

/-- CMP has compared `d` with `s`: the flags answer equality and both orders, and the registers are
as they were. -/
structure Compares (cpu cpu' : RvmCpu) (d s : Word) : Prop where
  kept : cpu'.regs.rv = cpu.regs.rv
  equal : cpu'.flagCheck RVM_CPU_FLAG_RZ = true ↔ d.toNat = s.toNat
  below : cpu'.flagCheck RVM_CPU_FLAG_RC = true ↔ d.toNat < s.toNat
  less : cpu'.flagCheck RVM_CPU_FLAG_RN ≠ cpu'.flagCheck RVM_CPU_FLAG_RO ↔ d.toInt < s.toInt

/-- The signed order is read from the sign of the difference and its overflow. -/
theorem Subtracts.less {cpu : RvmCpu} {v d s : Word} (h : Subtracts cpu v d s) :
    cpu.flagCheck RVM_CPU_FLAG_RN ≠ cpu.flagCheck RVM_CPU_FLAG_RO ↔ d.toInt < s.toInt := by
  have value := h.value
  have negative := h.result.negative
  have overflow := h.overflow
  rw [sign_bit_iff] at negative
  have := toInt_word d
  have := toInt_word s
  have differ : ∀ a b : Bool, a ≠ b ↔ ¬ (a = true ↔ b = true) := by decide
  rw [differ, negative, overflow]
  omega

theorem cmpWith_compares (cpu : RvmCpu) (rvd : RvmReg) (s : Word) :
    Compares cpu (cmpWith cpu rvd s).val (cpu.regs.rv rvd) s := by
  have h := subtract_subtracts cpu (cpu.regs.rv rvd) s
  refine ⟨(subtract_flagsOnly cpu _ s).rv, h.result.zero.trans ?_, h.borrow, h.less⟩
  have value := h.value
  have := (cpu.regs.rv rvd).isLt
  have := s.isLt
  omega

/-! ## DIV and MOD -/

/-- The value is written, RZ and RN speak of it, and RC and RO are kept. -/
structure WritesQuotient (cpu cpu' : RvmCpu) (rvd : RvmReg) (n : Nat) : Prop where
  value : (cpu'.regs.rv rvd).toNat = n
  result : Describes cpu' (cpu'.regs.rv rvd)
  carry : cpu'.flagCheck RVM_CPU_FLAG_RC = cpu.flagCheck RVM_CPU_FLAG_RC
  overflow : cpu'.flagCheck RVM_CPU_FLAG_RO = cpu.flagCheck RVM_CPU_FLAG_RO

theorem divideTo_val {operator : Nat → Nat → Nat} (cpu : RvmCpu) (rvd : RvmReg) {s : Word}
    (nonzero : s ≠ 0) :
    (divideTo operator cpu rvd s).val =
      let result := BitVec.ofNat 32 (operator (cpu.regs.rv rvd).toNat s.toNat)
      ((cpu.flagClear (RVM_CPU_FLAG_RZ ||| RVM_CPU_FLAG_RN)).setZeroNegative result).setRv rvd
        (low16 result) := by
  rw [divideTo, if_neg nonzero]
  rfl

theorem divideTo_writes {operator : Nat → Nat → Nat} (cpu : RvmCpu) (rvd : RvmReg) {s : Word}
    (nonzero : s ≠ 0) (small : operator (cpu.regs.rv rvd).toNat s.toNat < 2 ^ 16) :
    WritesQuotient cpu (divideTo operator cpu rvd s).val rvd
      (operator (cpu.regs.rv rvd).toNat s.toNat) := by
  have value : (low16 (BitVec.ofNat 32 (operator (cpu.regs.rv rvd).toNat s.toNat))).toNat =
      operator (cpu.regs.rv rvd).toNat s.toNat := by
    rw [low16_toNat, BitVec.toNat_ofNat]
    omega
  have kept : ∀ {result : BitVec 32} {g : Word}, RVM_CPU_FLAG_RZ &&& g = 0 →
      RVM_CPU_FLAG_RN &&& g = 0 → ~~~(RVM_CPU_FLAG_RZ ||| RVM_CPU_FLAG_RN) &&& g = g →
      ((cpu.flagClear (RVM_CPU_FLAG_RZ ||| RVM_CPU_FLAG_RN)).setZeroNegative result).flagCheck g =
        cpu.flagCheck g := by
    intro result g zero negative outside
    rw [flagCheck_setZeroNegative _ _ zero negative, flagCheck_kept outside]
  rw [divideTo_val cpu rvd nonzero]
  constructor
  · rw [RvmCpu.setRv_same]
    exact value
  · rw [RvmCpu.setRv_same]
    exact (describes_setZeroNegative cpu _ (by decide) (by decide)).setRv _ _
  · exact kept (by decide) (by decide) (by decide)
  · exact kept (by decide) (by decide) (by decide)

/-! ## The words -/

/-- The state after a word is executed. -/
def RvmCpu.execute (cpu : RvmCpu) (mem : RvmMemory) (w : Word) : RvmCpu × RvmMemory :=
  (rvmCpuExecute cpu mem (rvmDecode w)).val.2

/-- The word has the opcode `op`, the destination register `rvd` and a source operand `s`. -/
structure Operates (cpu : RvmCpu) (op : RvmOpcode) (rvd : RvmReg) (s w : Word) : Prop where
  opcode : (rvmDecode w).opcode = op.code
  reg : (rvmDecode w).reg = rvd
  source : (rvmDecode w).source cpu = s

/-- A word of an opcode that computes on the CPU alone. -/
theorem Operates.execute {cpu : RvmCpu} {op : RvmOpcode} {rvd : RvmReg} {s w : Word}
    (h : Operates cpu op rvd s w) (mem : RvmMemory)
    {f : RvmCpu → RvmReg → Word → Traced RvmEvent RvmCpu} (handler : op.handler = execOnSource f) :
    cpu.execute mem w = ((f cpu rvd s).val, mem) := by
  rw [RvmCpu.execute, rvmCpuExecute_eq cpu mem h.opcode, handler, ← h.reg, ← h.source]
  rfl

/-- **Arithmetic.** For every state of the CPU, destination register and source value: the words of
ADD and SUB write the sum and the difference, and their flags are those of exact arithmetic. CMP
sets the flags of SUB and nothing else, and they answer how its operands compare. DIV and MOD write
quotient and remainder and keep RC and RO; with a divisor of zero they only halt. -/
theorem arithmetic_exact (cpu : RvmCpu) (mem : RvmMemory) (rvd : RvmReg) (s : Word) :
    (∀ w, Operates cpu .add rvd s w → Sums (cpu.execute mem w).1
      ((cpu.execute mem w).1.regs.rv rvd) (cpu.regs.rv rvd) s) ∧
    (∀ w, Operates cpu .sub rvd s w → Subtracts (cpu.execute mem w).1
      ((cpu.execute mem w).1.regs.rv rvd) (cpu.regs.rv rvd) s) ∧
    (∀ w, Operates cpu .cmp rvd s w →
      Compares cpu (cpu.execute mem w).1 (cpu.regs.rv rvd) s ∧
      ∀ w', Operates cpu .sub rvd s w' →
        (cpu.execute mem w).1.regs.flags = (cpu.execute mem w').1.regs.flags) ∧
    (s ≠ 0 → ∃ q r, (cpu.regs.rv rvd).toNat = q * s.toNat + r ∧ r < s.toNat ∧
      (∀ w, Operates cpu .div rvd s w → WritesQuotient cpu (cpu.execute mem w).1 rvd q) ∧
      ∀ w, Operates cpu .mod rvd s w → WritesQuotient cpu (cpu.execute mem w).1 rvd r) ∧
    (s = 0 → ∀ w, Operates cpu .div rvd s w ∨ Operates cpu .mod rvd s w →
      cpu.execute mem w = (cpu.setHalt, mem)) := by
  refine ⟨fun w h => ?_, fun w h => ?_, fun w h => ⟨?_, fun w' h' => ?_⟩, ?_, ?_⟩
  · rw [h.execute mem rfl]
    exact addTo_sums cpu rvd s
  · rw [h.execute mem rfl]
    exact subTo_subtracts cpu rvd s
  · rw [h.execute mem rfl]
    exact cmpWith_compares cpu rvd s
  · rw [h.execute mem rfl, h'.execute mem rfl]
    rfl
  · intro nonzero
    have d := (cpu.regs.rv rvd).isLt
    have pos : 0 < s.toNat := Nat.pos_of_ne_zero fun zero => nonzero (BitVec.eq_of_toNat_eq zero)
    have quotient := Nat.div_le_self (cpu.regs.rv rvd).toNat s.toNat
    have remainder := Nat.mod_le (cpu.regs.rv rvd).toNat s.toNat
    refine ⟨(cpu.regs.rv rvd).toNat / s.toNat, (cpu.regs.rv rvd).toNat % s.toNat, ?_,
      Nat.mod_lt _ pos, fun w h => ?_, fun w h => ?_⟩
    · rw [Nat.mul_comm]
      exact (Nat.div_add_mod _ _).symm
    · rw [h.execute mem rfl]
      exact divideTo_writes cpu rvd nonzero (by omega)
    · rw [h.execute mem rfl]
      exact divideTo_writes cpu rvd nonzero (by omega)
  · rintro rfl w (h | h)
    · rw [h.execute mem rfl]
      rfl
    · rw [h.execute mem rfl]
      rfl

end RocketVm
