import RocketVm.Laws.Refinement
import RocketVm.Laws.Runs

/-!
# Code at another address

Code whose transfers are relative, and which leaves data alone, runs alike wherever it is in the
program region: `Relocated` relates a machine to one whose code is some words further down, with rip
and the return addresses on the stack moved by as much. `Relocated.step` is the simulation step.
-/

namespace RocketVm

open Lib

/-! ## Moved CPUs -/

/-- The CPU with rip moved. -/
def RvmCpu.moved (distance : Word) (cpu : RvmCpu) : RvmCpu :=
  cpu.setRip (cpu.regs.rip + distance)

theorem flagSetIf_setRip (cpu : RvmCpu) (rip : Word) (c : Bool) (flag : Word) :
    (cpu.setRip rip).flagSetIf c flag = (cpu.flagSetIf c flag).setRip rip := by
  cases c <;> rfl

theorem setZeroNegative_setRip (cpu : RvmCpu) (rip : Word) (result : BitVec 32) :
    (cpu.setRip rip).setZeroNegative result = (cpu.setZeroNegative result).setRip rip := by
  unfold RvmCpu.setZeroNegative
  rw [flagSetIf_setRip, flagSetIf_setRip]

theorem flagClear_setRip (cpu : RvmCpu) (rip flag : Word) :
    (cpu.setRip rip).flagClear flag = (cpu.flagClear flag).setRip rip := rfl

theorem setRv_setRip (cpu : RvmCpu) (rip : Word) (r : RvmReg) (v : Word) :
    (cpu.setRip rip).setRv r v = (cpu.setRv r v).setRip rip := rfl

/-- A computation does not look at rip. -/
theorem compute_setRip (op : RvmOpcode) (cpu : RvmCpu) (rip : Word) (rvd : RvmReg) (src : Word) :
    (op.compute (cpu.setRip rip) rvd src).val = (op.compute cpu rvd src).val.setRip rip := by
  have same : (cpu.setRip rip).regs.rv = cpu.regs.rv := rfl
  cases op with
  | add | sub | mul | cmp =>
    simp only [RvmOpcode.compute, addTo, subTo, subtract, mulTo, cmpWith, Traced.val_bind,
      Traced.val_pure, same, flagClear_setRip, setZeroNegative_setRip, flagSetIf_setRip,
      setRv_setRip]
  | div | mod =>
    simp only [RvmOpcode.compute, divideTo]
    split
    · rfl
    · simp only [Traced.val_bind, Traced.val_pure, same, flagClear_setRip, setZeroNegative_setRip,
        setRv_setRip]
  | shl =>
    simp only [RvmOpcode.compute, shlTo]
    split
    · rfl
    · simp only [Traced.val_bind, Traced.val_pure, same, flagClear_setRip, setZeroNegative_setRip,
        flagSetIf_setRip, setRv_setRip]
  | shr =>
    simp only [RvmOpcode.compute, shrTo]
    split <;>
    · simp only [Traced.val_bind, Traced.val_pure, same, flagClear_setRip, setZeroNegative_setRip,
        flagSetIf_setRip, setRv_setRip]
  | _ => rfl

theorem compute_moved (op : RvmOpcode) (cpu : RvmCpu) (distance : Word) (rvd : RvmReg)
    (src : Word) : (op.compute (cpu.moved distance) rvd src).val =
      (op.compute cpu rvd src).val.moved distance := by
  rw [RvmCpu.moved, compute_setRip, RvmCpu.moved, (compute_keeps op cpu rvd src).1]

/-- A jump to a target that is moved by an even distance. -/
theorem jumpTo_moved {distance : Word} (even : distance.toNat % 2 = 0) (cpu : RvmCpu)
    (target : Word) :
    (cpu.moved distance).jumpTo (target + distance) = (cpu.jumpTo target).moved distance := by
  have parity : (target + distance).toNat % 2 = target.toNat % 2 := by
    rw [BitVec.toNat_add]
    omega
  unfold RvmCpu.jumpTo
  rw [parity]
  split <;> rfl

theorem transferTarget_moved {instr : RvmInstr}
    (relative : RvmMode.ofBit (instr.raw >>> 11) = .immOrAddr) (cpu : RvmCpu) (distance : Word) :
    transferTarget (cpu.moved distance) instr = transferTarget cpu instr + distance := by
  rw [transferTarget_imm _ _ relative, transferTarget_imm _ _ relative]
  exact add_right_comm _ _ _

/-! ## Moved instructions -/

section Step

variable {n b : Nat} {cpu : RvmCpu} {mem mem' : RvmMemory} {instr : RvmInstr}

/-- The memories of a machine and of one that has the first `n` words `b` words further down: the
return addresses on the stack, from a given rsp on, are moved by as much. -/
structure MemoryMoved (n b : Nat) (rsp : Word) (mem mem' : RvmMemory) : Prop where
  code : ∀ i < n, mem'.word (2 * (i + b)) = mem.word (2 * i)
  stack : ∀ a, a % 2 = 1 → rsp.toNat ≤ a → a < RVM_MEMORY_STACK_END →
    mem'.word a = mem.word a + BitVec.ofNat 16 (2 * b)

/-- What an instruction leaves, and what it leaves on a moved machine. -/
def OutcomeMoved (n b : Nat) (out out' : RvmCpu × RvmMemory) : Prop :=
  out'.1 = out.1.moved (BitVec.ofNat 16 (2 * b)) ∧ MemoryMoved n b out.1.regs.rsp out.2 out'.2

theorem distance_even (b : Nat) : (BitVec.ofNat 16 (2 * b)).toNat % 2 = 0 := by
  rw [BitVec.toNat_ofNat]
  omega

theorem jumpTo_rsp (cpu : RvmCpu) (target : Word) :
    (cpu.jumpTo target).regs.rsp = cpu.regs.rsp := by
  unfold RvmCpu.jumpTo
  split <;> rfl

/-- A CALL. -/
theorem call_moved (odd : cpu.regs.rsp.toNat % 2 = 1)
    (moved : MemoryMoved n b cpu.regs.rsp mem mem') (fits : n + b ≤ 0x3FFF)
    (relative : RvmMode.ofBit (instr.raw >>> 11) = .immOrAddr) :
    OutcomeMoved n b (rvmCpuExecCall cpu mem instr).val
      (rvmCpuExecCall (cpu.moved (BitVec.ofNat 16 (2 * b))) mem' instr).val := by
  have even := distance_even b
  have parity : (transferTarget cpu instr + BitVec.ofNat 16 (2 * b)).toNat % 2 =
      (transferTarget cpu instr).toNat % 2 := by
    rw [BitVec.toNat_add]
    omega
  have rsp : (cpu.moved (BitVec.ofNat 16 (2 * b))).regs.rsp = cpu.regs.rsp := rfl
  rw [call_val, call_val, transferTarget_moved relative, parity, rsp]
  split
  · next room =>
    have high := cpu.regs.rsp.isLt
    have slot := toNat_sub_two (w := cpu.regs.rsp) (by omega)
    refine ⟨rfl, fun i inside => ?_, fun a odd' above below => ?_⟩
    · rw [RvmMemory.word_setWord_of_disjoint _ _ (by omega) (by omega),
        RvmMemory.word_setWord_of_disjoint _ _ (by omega) (by omega)]
      exact moved.code i inside
    · have above : (cpu.regs.rsp - 2).toNat ≤ a := above
      by_cases pushed : a = cpu.regs.rsp.toNat - 2
      · rw [pushed, RvmMemory.word_setWord_self _ _ (by omega),
          RvmMemory.word_setWord_self _ _ (by omega)]
        rfl
      · rw [RvmMemory.word_setWord_of_disjoint _ _ (by omega) (by omega),
          RvmMemory.word_setWord_of_disjoint _ _ (by omega) (by omega)]
        exact moved.stack a odd' (by omega) below
  · exact ⟨rfl, moved⟩

/-- A RET. -/
theorem ret_moved (odd : cpu.regs.rsp.toNat % 2 = 1)
    (moved : MemoryMoved n b cpu.regs.rsp mem mem') :
    OutcomeMoved n b (rvmCpuExecRet cpu mem instr).val
      (rvmCpuExecRet (cpu.moved (BitVec.ofNat 16 (2 * b))) mem' instr).val := by
  have rsp : (cpu.moved (BitVec.ofNat 16 (2 * b))).regs.rsp = cpu.regs.rsp := rfl
  rw [ret_val, ret_val, rsp]
  split
  · exact ⟨rfl, moved⟩
  · next nonempty =>
    have low : cpu.regs.rsp.toNat ≤ 0xFEFE := Nat.not_lt.mp nonempty
    have next := toNat_add_two (w := cpu.regs.rsp) (by omega)
    have popped := moved.stack _ odd (Nat.le_refl _) (Nat.lt_succ_of_le low)
    refine ⟨?_, moved.code, fun a odd above below => ?_⟩
    · rw [popped]
      exact jumpTo_moved (distance_even b) (cpu.setRsp (cpu.regs.rsp + 2)) _
    · rw [jumpTo_rsp] at above
      have above : (cpu.regs.rsp + 2).toNat ≤ a := above
      exact moved.stack a odd (by omega) below

/-- **One handler.** -/
theorem handler_moved {op : RvmOpcode} (odd : cpu.regs.rsp.toNat % 2 = 1)
    (moved : MemoryMoved n b cpu.regs.rsp mem mem') (fits : n + b ≤ 0x3FFF)
    (accesses : op ≠ .load ∧ op ≠ .store)
    (relative : op.transfers = true → RvmMode.ofBit (instr.raw >>> 11) = .immOrAddr) :
    OutcomeMoved n b (op.handler cpu mem instr).val
      (op.handler (cpu.moved (BitVec.ofNat 16 (2 * b))) mem' instr).val := by
  have jump : op = .jmp ∨ op = .jz ∨ op = .jnz → OutcomeMoved n b (op.handler cpu mem instr).val
      (op.handler (cpu.moved (BitVec.ofNat 16 (2 * b))) mem' instr).val := by
    intro jumps
    have branches : op.branches (cpu.moved (BitVec.ofNat 16 (2 * b))) = op.branches cpu := by
      rcases jumps with rfl | rfl | rfl <;> rfl
    have mode := relative (by rcases jumps with rfl | rfl | rfl <;> rfl)
    rw [jump_val _ _ _ jumps, jump_val _ _ _ jumps, branches, transferTarget_moved mode,
      jumpTo_moved (distance_even b)]
    split
    · refine ⟨rfl, ?_⟩
      rw [jumpTo_rsp]
      exact moved
    · exact ⟨rfl, moved⟩
  rcases op.kinds with takes | rfl | rfl | transfers | rfl
  · have source : instr.source (cpu.moved (BitVec.ofNat 16 (2 * b))) = instr.source cpu := rfl
    have call : op ≠ .call := fun same => by rw [same] at takes; cases takes
    have ret : op ≠ .ret := fun same => by rw [same] at takes; cases takes
    have rsp := ((handler_outcome cpu mem instr op).other call ret).1
    rw [handler_compute takes] at rsp
    rw [handler_compute takes, handler_compute takes, source, compute_moved]
    refine ⟨rfl, ?_⟩
    rw [rsp]
    exact moved
  · exact absurd rfl accesses.1
  · exact absurd rfl accesses.2
  · cases op with
    | jmp => exact jump (.inl rfl)
    | jz => exact jump (.inr (.inl rfl))
    | jnz => exact jump (.inr (.inr rfl))
    | call => exact call_moved odd moved fits (relative rfl)
    | _ => cases transfers
  · exact @ret_moved n b cpu mem mem' instr odd moved

end Step

/-! ## Moved machines -/

/-- The second machine has the first `n` words of the first one `b` words further down, and is where
the first one is. -/
structure Relocated (n b : Nat) (vm vm' : RvmVm) : Prop where
  inv : CpuInv vm.cpu
  cpu : vm'.cpu = vm.cpu.moved (BitVec.ofNat 16 (2 * b))
  mem : MemoryMoved n b vm.cpu.regs.rsp vm.mem vm'.mem

/-- The next cycle, if there is one, executes one of the first `n` words, which is no LOAD or STORE
and no transfer to a register. -/
def RvmVm.Movable (n : Nat) (vm : RvmVm) : Prop :=
  vm.cpu.halt = false → vm.cpu.regs.rip.toNat < 2 * n ∧
    ∀ instr op, vm.pending = some instr → vm.pendingOpcode = some op →
      (op ≠ .load ∧ op ≠ .store) ∧
        (op.transfers = true → RvmMode.ofBit (instr.raw >>> 11) = .immOrAddr)

/-- It is so when the instruction that is pending is such a one. -/
theorem RvmVm.movable_of_pending {n : Nat} {vm : RvmVm} {instr : RvmInstr} {op : RvmOpcode}
    (inside : vm.cpu.regs.rip.toNat < 2 * n) (pending : vm.pending = some instr)
    (opcode : vm.pendingOpcode = some op) (accesses : op ≠ .load ∧ op ≠ .store)
    (relative : op.transfers = true → RvmMode.ofBit (instr.raw >>> 11) = .immOrAddr) :
    vm.Movable n := by
  refine fun _ => ⟨inside, fun instr' op' pending' opcode' => ?_⟩
  cases pending.symm.trans pending'
  cases opcode.symm.trans opcode'
  exact ⟨accesses, relative⟩

namespace Relocated

variable {n b : Nat} {vm vm' : RvmVm}

/-- The moved machine is about to execute the same word. -/
theorem pending (moved : Relocated n b vm vm') (fits : n + b ≤ 0x3FFF) (movable : vm.Movable n)
    (running : vm.cpu.halt = false) :
    ∃ instr, vm.pending = some instr ∧ vm'.pending = some instr := by
  have inside := (movable running).1
  have even := moved.inv.rip_even
  have rip : vm'.cpu.regs.rip.toNat = vm.cpu.regs.rip.toNat + 2 * b := by
    rw [moved.cpu]
    show (vm.cpu.regs.rip + BitVec.ofNat 16 (2 * b)).toNat = _
    rw [BitVec.toNat_add, BitVec.toNat_ofNat]
    omega
  have word := moved.mem.code (vm.cpu.regs.rip.toNat / 2) (by omega)
  have here : 2 * (vm.cpu.regs.rip.toNat / 2) = vm.cpu.regs.rip.toNat := by omega
  have there : 2 * (vm.cpu.regs.rip.toNat / 2 + b) = vm'.cpu.regs.rip.toNat := by omega
  rw [here, there] at word
  refine ⟨_, RvmVm.pending_eq_some.mpr ⟨running, by omega, rfl⟩,
    RvmVm.pending_eq_some.mpr ⟨?_, by omega, congrArg rvmDecode word⟩⟩
  rw [moved.cpu]
  exact running

theorem halt (moved : Relocated n b vm vm') : vm'.cpu.halt = vm.cpu.halt := by
  rw [moved.cpu]
  rfl

theorem fetched (moved : Relocated n b vm vm') :
    vm'.fetched = vm.fetched.moved (BitVec.ofNat 16 (2 * b)) := by
  unfold RvmVm.fetched
  rw [moved.cpu]
  show vm.cpu.setRip (vm.cpu.regs.rip + BitVec.ofNat 16 (2 * b) + 2) =
    vm.cpu.setRip (vm.cpu.regs.rip + 2 + BitVec.ofNat 16 (2 * b))
  rw [add_right_comm]

/-- **The simulation step.** -/
theorem step (moved : Relocated n b vm vm') (fits : n + b ≤ 0x3FFF) (movable : vm.Movable n) :
    Relocated n b vm.cycle.val.2 vm'.cycle.val.2 := by
  have inv := (RvmVm.cycle_cases vm).inv moved.inv
  cases halted : vm.cpu.halt with
  | true =>
    have idle : ∀ {m : RvmVm}, m.cpu.halt = true → m.cycle.val.2 = m := fun halt =>
      RvmVm.cycle_of_not_pending (if_pos (.inl halt))
    rw [idle halted, idle (moved.halt.trans halted)]
    exact moved
  | false =>
    obtain ⟨instr, pending, pending'⟩ := moved.pending fits movable halted
    obtain ⟨op, code⟩ := rvmDecode_opcode_code (vm.mem.word vm.cpu.regs.rip.toNat)
    rw [(RvmVm.pending_eq_some.mp pending).2.2] at code
    have opcode := RvmVm.pendingOpcode_of_pending pending code
    have opcode' := RvmVm.pendingOpcode_of_pending pending' code
    obtain ⟨accesses, relative⟩ := (movable halted).2 instr op pending opcode
    have outcome := @handler_moved n b vm.fetched vm.mem vm'.mem instr op moved.inv.rsp_odd
      moved.mem fits accesses relative
    rw [← moved.fetched] at outcome
    rw [RvmVm.cycle_val pending opcode] at inv ⊢
    rw [RvmVm.cycle_val pending' opcode']
    exact ⟨inv, outcome.1, outcome.2⟩

end Relocated

/-- **Code at another address.** A machine whose code is some words further down than that of
another one, and still inside what the fetch can reach, stays where the other one is, and
`rvm_vm_run` returns the same on both, as long as the other one executes nothing but that code,
without LOAD, STORE and transfers to registers. -/
theorem relocated_runs_alike {n b fuel : Nat} {vm vm' : RvmVm} (start : Relocated n b vm vm')
    (fits : n + b ≤ 0x3FFF) (movable : ∀ j < fuel, (vm.after j).Movable n) :
    (∀ k ≤ fuel, Relocated n b (vm.after k) (vm'.after k)) ∧
      (rvmVmRun fuel vm').val.map Prod.fst = (rvmVmRun fuel vm).val.map Prod.fst := by
  have moved : ∀ k ≤ fuel, Relocated n b (vm.after k) (vm'.after k) := by
    intro k
    induction k with
    | zero => exact fun _ => start
    | succ k ih =>
      intro inside
      rw [RvmVm.after_succ, RvmVm.after_succ]
      exact (ih (Nat.le_of_succ_le inside)).step fits (movable k inside)
  refine ⟨moved, rvmVmRun_fst_congr fun j inside => ⟨?_, ?_⟩⟩
  · exact (moved j (Nat.le_of_lt inside)).halt
  · have here := moved j (Nat.le_of_lt inside)
    cases halted : (vm.after j).cpu.halt with
    | true =>
      have idle : ∀ {m : RvmVm}, m.cpu.halt = true → m.pending = none := fun halt =>
        if_pos (.inl halt)
      rw [idle halted, idle (here.halt.trans halted)]
    | false =>
      obtain ⟨instr, pending, pending'⟩ := here.pending fits (movable j inside) halted
      rw [pending, pending']

/-- A CALL, and a JMP to a last RET behind the one that it calls. -/
def movableCode : List Byte :=
  [ 0x02, 0xE0  -- 0: CALL 4
  , 0x02, 0xB0  -- 2: JMP 6
  , 0x00, 0xF0  -- 4: RET
  , 0x00, 0xF0 ]

def firstVm : RvmVm := { freshVm with mem := freshVm.mem.copy movableCode }

/-- The same code one word further down, where rip is. -/
def secondVm : RvmVm :=
  { cpu := freshVm.cpu.setRip 2, mem := freshVm.mem.copy ([0x00, 0x00] ++ movableCode) }

theorem second_relocated : Relocated 4 1 firstVm secondVm where
  inv := Loads.inv (show Loads { content := movableCode } firstVm from rfl) 0
  cpu := rfl
  mem := {
    code := fun i inside => by interval_cases i <;> decide +kernel
    stack := fun a _ above below => absurd below (Nat.not_lt.mpr above) }

/-- The cycles are those of the CALL, the RET, the JMP and the last RET; behind the first of them
the return address on the stack of the second machine is another one. -/
theorem relocated_runs_alike_call :
    (∀ k ≤ 5, Relocated 4 1 (firstVm.after k) (secondVm.after k)) ∧
      (rvmVmRun 5 secondVm).val.map Prod.fst = (rvmVmRun 5 firstVm).val.map Prod.fst := by
  refine relocated_runs_alike second_relocated (by decide) fun j inside => ?_
  have halted : (firstVm.after 4).cpu.halt = true := by decide +kernel
  interval_cases j
  · exact RvmVm.movable_of_pending (by decide +kernel)
      (show _ = some (rvmDecode 0xE002) by decide +kernel) (show _ = some .call by decide +kernel)
      (by decide) fun _ => by decide
  · exact RvmVm.movable_of_pending (by decide +kernel)
      (show _ = some (rvmDecode 0xF000) by decide +kernel) (show _ = some .ret by decide +kernel)
      (by decide) nofun
  · exact RvmVm.movable_of_pending (by decide +kernel)
      (show _ = some (rvmDecode 0xB002) by decide +kernel) (show _ = some .jmp by decide +kernel)
      (by decide) fun _ => by decide
  · exact RvmVm.movable_of_pending (by decide +kernel)
      (show _ = some (rvmDecode 0xF000) by decide +kernel) (show _ = some .ret by decide +kernel)
      (by decide) nofun
  · exact fun running => absurd running (by rw [halted]; decide)

end RocketVm
