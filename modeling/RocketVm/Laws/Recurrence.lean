import RocketVm.Laws.Runs
import RocketVm.Lib.Recurrence

/-!
# Runs that do not end

A VM has finitely many states, so a run that does not end comes back to one, and the loop of
`rvm_vm_run` can be told to go on forever after finitely many cycles. A run cannot even go on for
the length of the program region without an instruction that goes back.
-/

namespace RocketVm

open Lib

/-! ## The states of a VM -/

/-- What a VM consists of: its registers, the halt flag and the memory. -/
def RvmVm.parts (vm : RvmVm) :
    (RvmReg → Word) × Word × Word × Word × Word × Bool × ByteStore 0x10000 :=
  ⟨vm.cpu.regs.rv, vm.cpu.regs.rip, vm.cpu.regs.rsp, vm.cpu.regs.rsb, vm.cpu.regs.flags,
    vm.cpu.halt, vm.mem.data⟩

theorem RvmVm.parts_injective : Function.Injective RvmVm.parts := by
  rintro ⟨⟨⟨_, _, _, _, _⟩, _⟩, ⟨_⟩⟩ ⟨⟨⟨_, _, _, _, _⟩, _⟩, ⟨_⟩⟩ same
  cases same
  rfl

theorem card_bitVec (n : Nat) : Nat.card (BitVec n) = 2 ^ n := by
  rw [Nat.card_congr BitVec.equivFin.toEquiv, Nat.card_eq_fintype_card, Fintype.card_fin]

instance finiteBitVec (n : Nat) : Finite (BitVec n) := .of_equiv _ BitVec.equivFin.symm.toEquiv

instance finiteVm : Finite RvmVm := .of_injective _ RvmVm.parts_injective

theorem card_fun_bitVec (k n : Nat) : Nat.card (Fin k → BitVec n) = 2 ^ (n * k) := by
  rw [Nat.card_fun, card_bitVec, Nat.card_eq_fintype_card, Fintype.card_fin, ← pow_mul]

/-- Twelve registers, the halt flag, and 65536 bytes. -/
theorem card_vm : Nat.card RvmVm ≤ 2 ^ 524481 := by
  have halt : Nat.card Bool = 2 ^ 1 := by rw [Nat.card_eq_fintype_card, Fintype.card_bool, pow_one]
  have bits : 16 * 8 + (16 + (16 + (16 + (16 + (1 + 8 * 0x10000))))) = 524481 := rfl
  refine (Nat.card_le_card_of_injective _ RvmVm.parts_injective).trans (Nat.le_of_eq ?_)
  rw [Nat.card_prod, Nat.card_prod, Nat.card_prod, Nat.card_prod, Nat.card_prod, Nat.card_prod,
    card_fun_bitVec, card_fun_bitVec, card_bitVec, halt, ← pow_add, ← pow_add, ← pow_add, ← pow_add,
    ← pow_add, ← pow_add, bits]

/-! ## Endless runs -/

/-- **Endless runs.** The loop of `rvm_vm_run` never ends exactly when the machine comes back, still
running, to a state it has been in; it does so in the first 2^524481 cycles if at all. -/
theorem run_endless_iff (vm : RvmVm) : (∀ fuel, (rvmVmRun fuel vm).val = none) ↔
    ∃ i j, i < j ∧ j ≤ 2 ^ 524481 ∧ vm.after i = vm.after j ∧
      ∀ k < j, (vm.after k).pending.isSome = true := by
  refine Iff.trans ?_ (forall_iterate_iff (f := fun vm : RvmVm => vm.step.val) (s := vm)
    (P := fun vm => vm.pending.isSome = true) card_vm)
  constructor
  · exact fun endless k => rvmVmRun_eq_none.mp (endless (k + 1)) k (Nat.lt_succ_self k)
  · exact fun fetches fuel => rvmVmRun_eq_none.mpr fun j _ => fetches j

/-! ## Going back -/

/-- The next cycle executes a taken jump, a CALL or a RET, and lands no later than where it is. -/
def RvmVm.GoesBack (vm : RvmVm) : Prop :=
  (∃ op, vm.pendingOpcode = some op ∧ (op.branches vm.cpu = true ∨ op = .call ∨ op = .ret)) ∧
    vm.cycle.val.2.cpu.regs.rip.toNat ≤ vm.cpu.regs.rip.toNat

/-- A cycle that fetches and does not go back goes on. -/
theorem RvmVm.rip_lt_of_not_goesBack {vm : RvmVm} (fetches : vm.pending.isSome = true)
    (forward : ¬ vm.GoesBack) : vm.cpu.regs.rip.toNat < vm.cycle.val.2.cpu.regs.rip.toNat := by
  obtain ⟨instr, pending⟩ := Option.isSome_iff_exists.mp fetches
  obtain ⟨_, inside, decoded⟩ := pending_eq_some.mp pending
  obtain ⟨op, code⟩ := rvmDecode_opcode_code (vm.mem.word vm.cpu.regs.rip.toNat)
  rw [decoded] at code
  have opcode := pendingOpcode_of_pending pending code
  have footprint := (handler_outcome vm.fetched vm.mem instr op).footprint
  rw [← cycle_val pending opcode] at footprint
  by_contra back
  refine forward ⟨⟨op, opcode, footprint.rip fun next => ?_⟩, Nat.not_lt.mp back⟩
  rw [next, toNat_add_two (by omega)] at back
  omega

/-- **Long runs go back.** Of any 0x4000 cycles in a row that fetch, one executes a taken jump, a
CALL or a RET that lands no later than where it is. -/
theorem long_runs_go_back {file : RvmFile} {vm : RvmVm} (loaded : Loads file vm) (i : Nat)
    (fetches : ∀ j ≤ 0x3FFF, (vm.after (i + j)).pending.isSome = true) :
    ∃ j < 0x3FFF, (vm.after (i + j)).GoesBack := by
  by_contra forward
  push Not at forward
  -- rip is even, so each cycle moves it by two at least
  have climbs : ∀ j ≤ 0x3FFF, 2 * j ≤ (vm.after (i + j)).cpu.regs.rip.toNat := by
    intro j
    induction j with
    | zero => exact fun _ => Nat.zero_le _
    | succ j ih =>
      intro inside
      have moved := RvmVm.rip_lt_of_not_goesBack (fetches j (Nat.le_of_succ_le inside))
        (forward j inside)
      have before := ih (Nat.le_of_succ_le inside)
      have even := (loaded.inv (i + j)).rip_even
      have even' := (loaded.inv (i + (j + 1))).rip_even
      rw [← RvmVm.after_succ] at moved
      rw [← Nat.add_assoc] at even' ⊢
      omega
  obtain ⟨instr, pending⟩ := Option.isSome_iff_exists.mp (fetches 0x3FFF (Nat.le_refl _))
  have inside := (RvmVm.pending_eq_some.mp pending).2.1
  have := climbs 0x3FFF (Nat.le_refl _)
  omega

/-- A JMP to itself, loaded. -/
def selfJumpVm : RvmVm := { freshVm with mem := freshVm.mem.copy [0xFE, 0xB7] }

theorem selfJump_after (k : Nat) : selfJumpVm.after k = selfJumpVm := by
  induction k with
  | zero => rfl
  | succ k ih =>
    rw [RvmVm.after_succ, ih]
    rfl

theorem long_runs_go_back_selfJump : ∃ j < 0x3FFF, (selfJumpVm.after (0 + j)).GoesBack := by
  have loaded : Loads { content := [0xFE, 0xB7] } selfJumpVm := rfl
  refine long_runs_go_back loaded 0 fun j _ => ?_
  rw [selfJump_after]
  decide +kernel

end RocketVm
