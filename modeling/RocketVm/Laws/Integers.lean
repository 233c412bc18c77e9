import RocketVm.Laws.Shifts

/-!
# Integers of C

C computes on `uint16_t` operands in `int`. The handlers record every sum, difference, product and
left shift, and the count of every shift; here each of them is bounded. Only the product of MUL can
leave `int`, when both its operands are registers (`alu_defined_iff`).
-/

namespace RocketVm

open Lib

/-- A value that an `int` of 32 bits can hold. -/
def IsInt (value : Int) : Prop := -2147483648 ≤ value ∧ value ≤ 2147483647

/-- The C standard defines the recorded operation. -/
def RvmEvent.Defined : RvmEvent → Prop
  | .int value => IsInt value
  | .shift count => 0 ≤ count ∧ count ≤ 31
  | _ => True

/-! ## Computations -/

section Computations

variable (cpu : RvmCpu) (rvd : RvmReg) (s : Word)

theorem addTo_defined : (addTo cpu rvd s).All RvmEvent.Defined := by
  have := (cpu.regs.rv rvd).isLt
  have := s.isLt
  simp only [addTo, intResult, Traced.all_bind, Traced.all_emit, Traced.all_pure, and_true]
  exact ⟨by omega, by omega⟩

theorem subtract_defined (d : Word) : (subtract cpu d s).All RvmEvent.Defined := by
  have := d.isLt
  have := s.isLt
  simp only [subtract, intResult, Traced.all_bind, Traced.all_emit, Traced.all_pure, and_true]
  exact ⟨by omega, by omega⟩

theorem subTo_defined : (subTo cpu rvd s).All RvmEvent.Defined := by
  rw [subTo, Traced.all_bind]
  exact ⟨subtract_defined cpu s _, Traced.all_pure _ _⟩

theorem cmpWith_defined : (cmpWith cpu rvd s).All RvmEvent.Defined := by
  rw [cmpWith, Traced.all_bind]
  exact ⟨subtract_defined cpu s _, Traced.all_pure _ _⟩

/-- The product of two words can be too large for an `int`. -/
theorem mulTo_defined :
    (mulTo cpu rvd s).All RvmEvent.Defined ↔ (cpu.regs.rv rvd).toNat * s.toNat < 2 ^ 31 := by
  simp only [mulTo, intResult, Traced.all_bind, Traced.all_emit, Traced.all_pure, and_true]
  show IsInt ((cpu.regs.rv rvd).toNat * s.toNat : Nat) ↔ _
  unfold IsInt
  omega

theorem divideTo_defined (operator : Nat → Nat → Nat) :
    (divideTo operator cpu rvd s).All RvmEvent.Defined := by
  by_cases zero : s = 0
  · simp only [divideTo, if_pos zero, Traced.all_bind, Traced.all_emit, Traced.all_pure, and_true]
    trivial
  · simp only [divideTo, if_neg zero, Traced.all_bind, Traced.all_emit, Traced.all_pure, and_true]
    trivial

/-- The left shift stays below the sign bit of `int` by one count. -/
theorem shlTo_defined : (shlTo cpu rvd s).All RvmEvent.Defined := by
  have d := (cpu.regs.rv rvd).isLt
  have small := Nat.mod_lt s.toNat (by decide : 16 > 0)
  unfold shlTo
  rw [shift_amount]
  generalize s.toNat % 16 = k at small
  dsimp only
  by_cases zero : k = 0
  · rw [if_pos zero]
    exact Traced.all_pure _ _
  · rw [if_neg zero]
    have product : (cpu.regs.rv rvd).toNat * 2 ^ k ≤ 65535 * 2 ^ 15 :=
      Nat.mul_le_mul (by omega) (Nat.pow_le_pow_right (by decide) (by omega))
    have shifted : IsInt (((cpu.regs.rv rvd).toNat : Int) * 2 ^ k) := by
      show IsInt (((cpu.regs.rv rvd).toNat : Int) * ((2 : Nat) : Int) ^ k)
      rw [← Int.natCast_pow, ← Int.natCast_mul]
      exact ⟨by omega, by omega⟩
    simp only [intResult, shiftRight, Traced.all_bind, Traced.all_emit, Traced.all_pure, and_true]
    refine ⟨⟨by omega, by omega⟩, shifted, ⟨by omega, by omega⟩, by omega, by omega⟩

theorem shrTo_defined : (shrTo cpu rvd s).All RvmEvent.Defined := by
  have small := Nat.mod_lt s.toNat (by decide : 16 > 0)
  unfold shrTo
  rw [shift_amount]
  generalize s.toNat % 16 = k at small
  dsimp only [shiftRight]
  by_cases zero : k = 0
  · simp only [if_pos zero, Traced.all_bind, Traced.all_emit, Traced.all_pure, and_true]
    exact ⟨by omega, by omega⟩
  · simp only [if_neg zero, Traced.all_bind, Traced.all_emit, Traced.all_pure, and_true]
    exact ⟨⟨by omega, by omega⟩, ⟨by omega, by omega⟩, by omega, by omega⟩

end Computations

/-! ## The product -/

/-- `v` is the low half of the product of `d` and `s`, and RC and RO say whether there is more. -/
structure Multiplies (cpu : RvmCpu) (v d s : Word) : Prop where
  value : v.toNat = d.toNat * s.toNat % 2 ^ 16
  result : Describes cpu v
  carry : cpu.flagCheck RVM_CPU_FLAG_RC = true ↔ 0xFFFF < d.toNat * s.toNat
  overflow : cpu.flagCheck RVM_CPU_FLAG_RO = true ↔ 0xFFFF < d.toNat * s.toNat

theorem product_toNat (d s : Word) :
    (BitVec.ofInt 32 ((d.toNat : Int) * s.toNat)).toNat = d.toNat * s.toNat := by
  have bound : d.toNat * s.toNat < 2 ^ 16 * 2 ^ 16 := Nat.mul_lt_mul'' d.isLt s.isLt
  rw [← Int.natCast_mul, BitVec.ofInt_natCast, BitVec.toNat_ofNat]
  exact Nat.mod_eq_of_lt bound

theorem mulTo_val (cpu : RvmCpu) (rvd : RvmReg) (s : Word) :
    (mulTo cpu rvd s).val =
      let result := BitVec.ofInt 32 (((cpu.regs.rv rvd).toNat : Int) * s.toNat)
      (cpu.setArithmetic result (decide (result > 0xFFFF)) (decide (result > 0xFFFF))).setRv rvd
        (low16 result) := rfl

theorem mulTo_multiplies (cpu : RvmCpu) (rvd : RvmReg) (s : Word) :
    Multiplies (mulTo cpu rvd s).val ((mulTo cpu rvd s).val.regs.rv rvd) (cpu.regs.rv rvd) s := by
  rw [mulTo_val]
  have product := product_toNat (cpu.regs.rv rvd) s
  generalize BitVec.ofInt 32 (((cpu.regs.rv rvd).toNat : Int) * s.toNat) = result at product
  obtain ⟨describes, carry, overflow⟩ := flags_arithmetic cpu result (decide (result > 0xFFFF))
    (decide (result > 0xFFFF))
  have large : decide (result > 0xFFFF) = true ↔
      0xFFFF < (cpu.regs.rv rvd).toNat * s.toNat := by
    rw [decide_eq_true_eq, gt_iff_lt, BitVec.lt_def, product]
    rfl
  dsimp only
  rw [RvmCpu.setRv_same]
  refine ⟨?_, describes.setRv _ _, ?_, ?_⟩
  · rw [low16_toNat, product]
  · rw [flagCheck_setRv, carry]
    exact large
  · rw [flagCheck_setRv, overflow]
    exact large

/-! ## Cycles -/

/-- The opcodes whose handlers compute with integers, and MOV. -/
def RvmOpcode.computes (op : RvmOpcode) : Bool := op.writesResult || op == .cmp

theorem execOnSource_all {p : RvmEvent → Prop} {f : RvmCpu → RvmReg → Word → Traced RvmEvent RvmCpu}
    {cpu : RvmCpu} {mem : RvmMemory} {instr : RvmInstr} :
    (execOnSource f cpu mem instr).All p ↔ (f cpu instr.reg (instr.source cpu)).All p := by
  simp only [execOnSource, Traced.all_bind, Traced.all_pure, and_true]

/-- The operations of a handler are defined, unless it is that of MUL and its product does not fit
an `int`. -/
theorem handler_defined {op : RvmOpcode} (computes : op.computes = true) (cpu : RvmCpu)
    (mem : RvmMemory) (instr : RvmInstr) :
    (op.handler cpu mem instr).All RvmEvent.Defined ↔
      ¬ (op = .mul ∧ 2 ^ 31 ≤ (cpu.regs.rv instr.reg).toNat * (instr.source cpu).toNat) := by
  have always : ∀ {f : RvmCpu → RvmReg → Word → Traced RvmEvent RvmCpu},
      (f cpu instr.reg (instr.source cpu)).All RvmEvent.Defined → op ≠ .mul →
      ((execOnSource f cpu mem instr).All RvmEvent.Defined ↔
        ¬ (op = .mul ∧ 2 ^ 31 ≤ (cpu.regs.rv instr.reg).toNat * (instr.source cpu).toNat)) :=
    fun defined other => iff_of_true (execOnSource_all.mpr defined) fun both => other both.1
  cases op with
  | mul =>
    rw [and_iff_right rfl, Nat.not_le]
    exact execOnSource_all.trans (mulTo_defined cpu instr.reg (instr.source cpu))
  | mov => exact always (Traced.all_pure _ _) (by decide)
  | add => exact always (addTo_defined cpu _ _) (by decide)
  | sub => exact always (subTo_defined cpu _ _) (by decide)
  | cmp => exact always (cmpWith_defined cpu _ _) (by decide)
  | div => exact always (divideTo_defined cpu _ _ _) (by decide)
  | mod => exact always (divideTo_defined cpu _ _ _) (by decide)
  | shl => exact always (shlTo_defined cpu _ _) (by decide)
  | shr => exact always (shrTo_defined cpu _ _) (by decide)
  | _ => cases computes

namespace RvmVm

/-- The operations of the next cycle are defined, and a MUL leaves the product with its flags. -/
structure ArithmeticDefined (vm : RvmVm) : Prop where
  defined : vm.cycle.All RvmEvent.Defined
  product : ∀ instr, vm.pending = some instr → vm.pendingOpcode = some .mul →
    Multiplies vm.cycle.val.2.cpu (vm.cycle.val.2.cpu.regs.rv instr.reg)
      (vm.cpu.regs.rv instr.reg) (instr.source vm.cpu)

/-- The next instruction is a MUL whose product does not fit an `int`. -/
def ProductTooLarge (vm : RvmVm) : Prop :=
  ∃ instr, vm.pending = some instr ∧ vm.pendingOpcode = some .mul ∧
    2 ^ 31 ≤ (vm.cpu.regs.rv instr.reg).toNat * (instr.source vm.cpu).toNat

/-- The fetch leaves the general purpose registers. -/
theorem source_fetched (vm : RvmVm) (instr : RvmInstr) :
    instr.source vm.fetched = instr.source vm.cpu := by
  unfold RvmInstr.source
  cases instr.mode <;> rfl

/-- What a MUL leaves in the cycle that executes it. -/
theorem cycle_multiplies {vm : RvmVm} {instr : RvmInstr} (pending : vm.pending = some instr)
    (opcode : vm.pendingOpcode = some .mul) :
    Multiplies vm.cycle.val.2.cpu (vm.cycle.val.2.cpu.regs.rv instr.reg)
      (vm.cpu.regs.rv instr.reg) (instr.source vm.cpu) := by
  rw [cycle_val pending opcode, ← source_fetched]
  exact mulTo_multiplies vm.fetched instr.reg (instr.source vm.fetched)

theorem arithmeticDefined_iff {vm : RvmVm} {op : RvmOpcode} (opcode : vm.pendingOpcode = some op)
    (computes : op.computes = true) : vm.ArithmeticDefined ↔ ¬ vm.ProductTooLarge := by
  obtain ⟨instr, pending, code⟩ := Option.bind_eq_some_iff.mp opcode
  have defined : vm.cycle.All RvmEvent.Defined ↔ ¬ (op = .mul ∧
      2 ^ 31 ≤ (vm.cpu.regs.rv instr.reg).toNat * (instr.source vm.cpu).toNat) := by
    rw [← source_fetched, cycle_of_pending pending (pending_code pending opcode)]
    refine Iff.trans ?_ (handler_defined computes vm.fetched vm.mem instr)
    rw [Traced.All, List.forall_mem_cons, List.forall_mem_cons]
    exact ⟨fun all => all.2.2, fun all => ⟨trivial, trivial, all⟩⟩
  constructor
  · rintro safe ⟨instr', pending', mul, large⟩
    cases pending.symm.trans pending'
    cases opcode.symm.trans mul
    exact defined.mp safe.defined ⟨rfl, large⟩
  · intro small
    refine ⟨defined.mpr fun large => small ⟨instr, pending, large.1 ▸ opcode, large.2⟩, ?_⟩
    intro instr' pending' mul
    exact cycle_multiplies pending' mul

end RvmVm

/-- **Integer arithmetic.** Along every run, the operations of an arithmetic instruction or CMP are
defined, and MUL leaves the product with its flags, if and only if the instruction is not a MUL
whose product exceeds the largest `int`. -/
theorem alu_defined_iff (vm : RvmVm) (k : Nat) {op : RvmOpcode}
    (opcode : (vm.after k).pendingOpcode = some op) (computes : op.computes = true) :
    (vm.after k).ArithmeticDefined ↔ ¬ (vm.after k).ProductTooLarge :=
  RvmVm.arithmeticDefined_iff opcode computes

/-- `SUB rv0, 1` and `MUL rv0, rv0`. -/
def squareOfMax : List Byte := [0x01, 0x40, 0x00, 0x51]

def squareVm : RvmVm := { freshVm with mem := freshVm.mem.copy squareOfMax }

theorem alu_defined_iff_sub :
    (squareVm.after 0).ArithmeticDefined ↔ ¬ (squareVm.after 0).ProductTooLarge :=
  @alu_defined_iff squareVm 0 .sub (by decide +kernel) rfl

/-- The second instruction multiplies 0xFFFF by itself, which no `int` holds. -/
theorem square_overflows : ¬ ∀ (file : RvmFile) (vm : RvmVm) (k : Nat) (op : RvmOpcode),
    Loads file vm → (vm.after k).pendingOpcode = some op → op.computes = true →
    (vm.after k).ArithmeticDefined := by
  intro all
  have opcode : (squareVm.after 1).pendingOpcode = some .mul := by decide +kernel
  have recorded : .int 0xFFFE0001 ∈ (squareVm.after 1).cycle.events := by decide +kernel
  have safe := (all { content := squareOfMax } squareVm 1 .mul rfl opcode rfl).defined
  exact absurd (safe _ recorded).2 (by decide)

end RocketVm
