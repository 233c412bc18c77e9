import RocketVm.Laws.Vm

/-!
# The machine invariant

`CpuInv` holds of every state a loaded image reaches: rip even, rsp odd and inside the stack, no
undefined flag, rsb zero. The stack checks of CALL and RET bound rsp from one side each; the
parity of rsp supplies the other side, which is why it is a field of the invariant. `vm_safety`
reads off what the invariant rules out, and `stack_never_aligned` that the parity is the odd one.
-/

namespace RocketVm

open Lib

/-- The invariant of the running CPU. -/
structure CpuInv (cpu : RvmCpu) : Prop where
  rip_even : cpu.regs.rip.toNat % 2 = 0
  rsp_odd : cpu.regs.rsp.toNat % 2 = 1
  rsp_low : 0xF001 ≤ cpu.regs.rsp.toNat
  rsp_high : cpu.regs.rsp.toNat ≤ 0xFEFF
  flags : cpu.regs.flags &&& ~~~flagsAll = 0
  rsb : cpu.regs.rsb = 0

/-- What an event must meet for the C code behind it to be defined: the assertion of a 16-bit
access (its two bytes are then inside the memory), a divisor other than zero, and no wrap-around
of an updated register. -/
def RvmEvent.Safe : RvmEvent → Prop
  | .read offset => offset.toNat < 0xFFFF
  | .write offset _ => offset.toNat < 0xFFFF
  | .divide divisor => divisor ≠ 0
  | .assign16 exact => 0 ≤ exact ∧ exact ≤ 0xFFFF
  | _ => True

theorem RvmEvent.Quiet.safe {e : RvmEvent} (h : e.Quiet) : e.Safe := by
  cases e with
  | int | shift => trivial
  | divide d => exact h
  | _ => exact h.elim

/-! ## Preservation -/

theorem FlagsOnly.inv {cpu cpu' : RvmCpu} (h : FlagsOnly flagsAll cpu cpu') (inv : CpuInv cpu) :
    CpuInv cpu' where
  rip_even := h.rip ▸ inv.rip_even
  rsp_odd := h.rsp ▸ inv.rsp_odd
  rsp_low := h.rsp ▸ inv.rsp_low
  rsp_high := h.rsp ▸ inv.rsp_high
  flags := h.kept.trans inv.flags
  rsb := h.rsb.trans inv.rsb

/-- Whatever an opcode writes is among the four flags. -/
theorem FlagsOnly.widen {op : RvmOpcode} {cpu cpu' : RvmCpu}
    (h : FlagsOnly op.flagsWritten cpu cpu') : FlagsOnly flagsAll cpu cpu' := by
  refine ⟨h.rv, h.rip, h.rsp, h.rsb, h.halt, ?_⟩
  have narrower : ~~~flagsAll = ~~~op.flagsWritten &&& ~~~flagsAll := by
    cases op <;> decide
  rw [narrower, ← BitVec.and_assoc, ← BitVec.and_assoc, h.kept]

theorem CpuInv.setRv {cpu : RvmCpu} (inv : CpuInv cpu) (r : RvmReg) (v : Word) :
    CpuInv (cpu.setRv r v) :=
  ⟨inv.rip_even, inv.rsp_odd, inv.rsp_low, inv.rsp_high, inv.flags, inv.rsb⟩

theorem CpuInv.setHalt {cpu : RvmCpu} (inv : CpuInv cpu) : CpuInv cpu.setHalt :=
  ⟨inv.rip_even, inv.rsp_odd, inv.rsp_low, inv.rsp_high, inv.flags, inv.rsb⟩

theorem CpuInv.setRip {cpu : RvmCpu} (inv : CpuInv cpu) {v : Word} (h : v.toNat % 2 = 0) :
    CpuInv (cpu.setRip v) :=
  ⟨h, inv.rsp_odd, inv.rsp_low, inv.rsp_high, inv.flags, inv.rsb⟩

/-- A push moves rsp to the next odd slot below; the check and the parity leave it in the stack. -/
theorem CpuInv.push {cpu : RvmCpu} (inv : CpuInv cpu) (room : 0xF002 ≤ cpu.regs.rsp.toNat) :
    CpuInv (cpu.setRsp (cpu.regs.rsp - 2)) := by
  have sp : (cpu.regs.rsp - 2).toNat = cpu.regs.rsp.toNat - 2 := toNat_sub_two (by omega)
  have := inv.rsp_odd
  have := inv.rsp_high
  exact ⟨inv.rip_even, by simp only [RvmCpu.setRsp_rsp]; omega,
    by simp only [RvmCpu.setRsp_rsp]; omega, by simp only [RvmCpu.setRsp_rsp]; omega,
    inv.flags, inv.rsb⟩

/-- A pop moves rsp to the next odd slot above, at most to the initial one. -/
theorem CpuInv.pop {cpu : RvmCpu} (inv : CpuInv cpu) (nonempty : cpu.regs.rsp.toNat ≤ 0xFEFE) :
    CpuInv (cpu.setRsp (cpu.regs.rsp + 2)) := by
  have sp : (cpu.regs.rsp + 2).toNat = cpu.regs.rsp.toNat + 2 := toNat_add_two (by omega)
  have := inv.rsp_odd
  have := inv.rsp_low
  exact ⟨inv.rip_even, by simp only [RvmCpu.setRsp_rsp]; omega,
    by simp only [RvmCpu.setRsp_rsp]; omega, by simp only [RvmCpu.setRsp_rsp]; omega,
    inv.flags, inv.rsb⟩

theorem Computes.inv {op : RvmOpcode} {rvd : RvmReg} {cpu cpu' : RvmCpu}
    (h : Computes op.flagsWritten rvd cpu cpu') (inv : CpuInv cpu) : CpuInv cpu' := by
  obtain ⟨mid, flags, rfl | ⟨v, rfl⟩⟩ := h
  · exact flags.widen.inv inv
  · exact (flags.widen.inv inv).setRv rvd v

/-- Every case of an instruction keeps the invariant. -/
theorem Outcome.inv {cpu cpu' : RvmCpu} {mem mem' : RvmMemory} {instr : RvmInstr}
    {op : RvmOpcode} {events : List RvmEvent} (inv : CpuInv cpu)
    (h : Outcome cpu mem instr op (cpu', mem') events) : CpuInv cpu' := by
  cases h with
  | computed _ _ computes _ => exact computes.inv inv
  | compared flags _ => exact flags.inv inv
  | loaded _ => exact inv.setRv _ _
  | stored _ | passed _ _ => exact inv
  | jumped _ even => exact inv.setRip even
  | called even room => exact (inv.push room).setRip even
  | returnFault nonempty _ => exact (inv.pop nonempty).setHalt
  | returned nonempty even => exact (inv.pop nonempty).setRip even
  | _ => exact inv.setHalt

/-- Under the invariant every event of an instruction is safe. -/
theorem Outcome.safe {cpu : RvmCpu} {mem : RvmMemory} {instr : RvmInstr} {op : RvmOpcode}
    {out : RvmCpu × RvmMemory} {events : List RvmEvent} (inv : CpuInv cpu)
    (h : Outcome cpu mem instr op out events) : ∀ e ∈ events, e.Safe := by
  have high := inv.rsp_high
  have low := inv.rsp_low
  have src := (instr.source cpu).isLt
  cases h with
  | computed _ _ _ quiet | compared _ quiet => exact fun e he => (quiet e he).safe
  | loaded even | stored even =>
    simp only [List.mem_singleton, forall_eq, RvmEvent.Safe]
    omega
  | called _ room =>
    have sp : (cpu.regs.rsp - 2).toNat = cpu.regs.rsp.toNat - 2 := toNat_sub_two (by omega)
    simp only [List.mem_cons, List.not_mem_nil, or_false, forall_eq_or_imp, forall_eq,
      RvmEvent.Safe]
    omega
  | returnFault nonempty _ | returned nonempty _ =>
    simp only [List.mem_cons, List.not_mem_nil, or_false, forall_eq_or_imp, forall_eq,
      RvmEvent.Safe, and_true]
    omega
  | _ => simp [RvmEvent.Safe]

theorem CpuInv.fetched {vm : RvmVm} (inv : CpuInv vm.cpu)
    (inside : vm.cpu.regs.rip.toNat ≤ 0x7FFD) : CpuInv vm.fetched := by
  have rip : (vm.cpu.regs.rip + 2).toNat = vm.cpu.regs.rip.toNat + 2 := toNat_add_two (by omega)
  have := inv.rip_even
  exact inv.setRip (by omega)

/-- One cycle keeps the invariant. -/
theorem CycleCase.inv {vm vm' : RvmVm} {ret : Int} {events : List RvmEvent}
    (inv : CpuInv vm.cpu) (h : CycleCase vm ret vm' events) : CpuInv vm'.cpu := by
  cases h with
  | halted _ | ripOutOfBounds _ _ => exact inv
  | executed pending _ outcome =>
    exact outcome.inv (inv.fetched (RvmVm.pending_eq_some.mp pending).2.1)

/-- Under the invariant every event of a cycle is safe. -/
theorem CycleCase.safe {vm vm' : RvmVm} {ret : Int} {events : List RvmEvent}
    (inv : CpuInv vm.cpu) (h : CycleCase vm ret vm' events) : ∀ e ∈ events, e.Safe := by
  cases h with
  | halted _ => simp
  | ripOutOfBounds _ _ => simp [RvmEvent.Safe]
  | executed pending _ outcome =>
    have inside := (RvmVm.pending_eq_some.mp pending).2.1
    simp only [List.mem_cons, forall_eq_or_imp, RvmEvent.Safe]
    exact ⟨by omega, by omega, outcome.safe (inv.fetched inside)⟩

/-! ## Runs -/

theorem Loads.cpu {file : RvmFile} {vm : RvmVm} (h : Loads file vm) : vm.cpu = freshVm.cpu := by
  unfold Loads rvmVmLoad at h
  split at h
  · cases h
  · split at h
    · cases h
    · cases h
      rfl

theorem freshVm_inv : CpuInv freshVm.cpu := by
  constructor <;> decide

/-- The invariant holds in every state a loaded image reaches. -/
theorem Loads.inv {file : RvmFile} {vm : RvmVm} (h : Loads file vm) (k : Nat) :
    CpuInv (vm.after k).cpu :=
  run_invariant (I := fun vm => CpuInv vm.cpu) (h.cpu ▸ freshVm_inv)
    (fun s inv => (RvmVm.cycle_cases s).inv inv) k

/-- **Safety of the virtual machine.** In every state a loaded image reaches the invariant holds,
every event of the next cycle is safe, and `rvm_cpu_execute` does not fail on the instruction
that cycle fetches. -/
theorem vm_safety {file : RvmFile} {vm : RvmVm} (loaded : Loads file vm) (k : Nat) :
    CpuInv (vm.after k).cpu ∧
    (∀ e ∈ (vm.after k).cycle.events, e.Safe) ∧
    ∀ instr, (vm.after k).pending = some instr →
      (rvmCpuExecute (vm.after k).fetched (vm.after k).mem instr).val.1 ≠ -1 := by
  have inv := loaded.inv k
  refine ⟨inv, (RvmVm.cycle_cases _).safe inv, fun instr pending => ?_⟩
  obtain ⟨_, _, decoded⟩ := RvmVm.pending_eq_some.mp pending
  rw [← decoded, rvmCpuExecute_decoded]
  decide

/-- The smallest image that runs: a single RET. -/
def retFile : RvmFile := { content := [0x00, 0xF0] }

def retVm : RvmVm := { freshVm with mem := freshVm.mem.copy [0x00, 0xF0] }

/-- A subroutine that stores a number. -/
def storeFile : RvmFile :=
  { content :=
      [ 0x07, 0x00  -- 0: MOV rv0, 7
      , 0x02, 0xE0  -- 2: CALL 6
      , 0x00, 0xF0  -- 4: RET
      , 0x40, 0x20  -- 6: STORE [0x40], rv0
      , 0x00, 0xF0 ] }

def storeVm : RvmVm := { freshVm with mem := freshVm.mem.copy storeFile.content }

/-- The cycle of its STORE. -/
theorem vm_safety_store : CpuInv (storeVm.after 2).cpu ∧
    (∀ e ∈ (storeVm.after 2).cycle.events, e.Safe) ∧
    ∀ instr, (storeVm.after 2).pending = some instr →
      (rvmCpuExecute (storeVm.after 2).fetched (storeVm.after 2).mem instr).val.1 ≠ -1 :=
  vm_safety (show Loads storeFile storeVm from rfl) 2

/-! ## Alignment -/

/-- The address of a 16-bit access. -/
def RvmEvent.offset? : RvmEvent → Option Word
  | .read offset => some offset
  | .write offset _ => some offset
  | _ => none

/-- What the specification asks of a state under "Stack is 16-bit aligned": rsp is even, and so
is the address of every 16-bit access of the next cycle. -/
def AlignedAt (vm : RvmVm) : Prop :=
  vm.cpu.regs.rsp.toNat % 2 = 0 ∧
    ∀ e ∈ vm.cycle.events, ∀ offset, e.offset? = some offset → offset.toNat % 2 = 0

/-- The stack opcodes. -/
def RvmOpcode.usesStack : RvmOpcode → Bool
  | .call | .ret => true
  | _ => false

theorem RvmEvent.Quiet.offset? {e : RvmEvent} (h : e.Quiet) : e.offset? = none := by
  cases e <;> first | rfl | exact h.elim

/-- Under the invariant the accesses of CALL and RET are at odd addresses of the stack, and those
of every other opcode at even addresses. -/
theorem Outcome.parity {cpu : RvmCpu} {mem : RvmMemory} {instr : RvmInstr} {op : RvmOpcode}
    {out : RvmCpu × RvmMemory} {events : List RvmEvent} (inv : CpuInv cpu)
    (h : Outcome cpu mem instr op out events) {e : RvmEvent} (he : e ∈ events) {offset : Word}
    (access : e.offset? = some offset) :
    if op.usesStack then offset.toNat % 2 = 1 ∧ 0xF000 ≤ offset.toNat
    else offset.toNat % 2 = 0 := by
  have odd := inv.rsp_odd
  have high := inv.rsp_high
  have low := inv.rsp_low
  cases h with
  | computed _ _ _ quiet | compared _ quiet =>
    rw [(quiet e he).offset?] at access
    cases access
  | loaded even | stored even =>
    cases List.mem_singleton.mp he
    cases access
    exact even
  | called _ room =>
    have sp : (cpu.regs.rsp - 2).toNat = cpu.regs.rsp.toNat - 2 := toNat_sub_two (by omega)
    rcases List.mem_cons.mp he with rfl | he
    · cases access
    · cases List.mem_singleton.mp he
      cases access
      exact ⟨by omega, by omega⟩
  | returnFault _ _ | returned _ _ =>
    simp only [List.mem_cons, List.not_mem_nil, or_false] at he
    rcases he with rfl | rfl | rfl <;> cases access
    exact ⟨odd, by omega⟩
  | passed _ _ | jumped _ _ | exited _ => exact absurd he List.not_mem_nil
  | _ =>
    cases List.mem_singleton.mp he
    cases access

/-- Under the invariant the odd accesses of a cycle are those of CALL and RET past the fetch. -/
theorem CycleCase.parity {vm vm' : RvmVm} {ret : Int} {events : List RvmEvent}
    (inv : CpuInv vm.cpu) (h : CycleCase vm ret vm' events) {e : RvmEvent} (he : e ∈ events)
    {offset : Word} (access : e.offset? = some offset) :
    offset.toNat % 2 = 1 ↔ offset ≠ vm.cpu.regs.rip ∧
      ∃ op, vm.pendingOpcode = some op ∧ op.usesStack = true := by
  cases h with
  | halted _ => exact absurd he List.not_mem_nil
  | ripOutOfBounds _ _ =>
    cases List.mem_singleton.mp he
    cases access
  | executed pending opcode outcome =>
    rename_i instr op cpu' mem' events
    have inside := (RvmVm.pending_eq_some.mp pending).2.1
    have even := inv.rip_even
    rcases List.mem_cons.mp he with rfl | he
    · cases access
      exact iff_of_false (by omega) fun h => h.1 rfl
    rcases List.mem_cons.mp he with rfl | he
    · cases access
    have parity := outcome.parity (inv.fetched inside) he access
    rw [opcode]
    cases uses : op.usesStack with
    | true =>
      rw [uses, if_pos rfl] at parity
      refine iff_of_true parity.1 ⟨fun same => ?_, op, rfl, uses⟩
      have := congrArg BitVec.toNat same
      omega
    | false =>
      rw [uses, if_neg (by decide)] at parity
      refine iff_of_false (by omega) ?_
      rintro ⟨_, op', h, uses'⟩
      cases h
      rw [uses] at uses'
      cases uses'

/-- **The stack is never aligned.** In every state a loaded image reaches rsp is odd, so the state
is not aligned; and of the accesses of the next cycle exactly the push of CALL and the pop of RET
are at odd addresses, the fetch and those of LOAD and STORE at even ones. -/
theorem stack_never_aligned {file : RvmFile} {vm : RvmVm} (loaded : Loads file vm) (k : Nat) :
    ¬ AlignedAt (vm.after k) ∧ (vm.after k).cpu.regs.rsp.toNat % 2 = 1 ∧
    ∀ e ∈ (vm.after k).cycle.events, ∀ offset, e.offset? = some offset →
      (offset.toNat % 2 = 1 ↔ offset ≠ (vm.after k).cpu.regs.rip ∧
        ∃ op, (vm.after k).pendingOpcode = some op ∧ op.usesStack = true) := by
  have inv := loaded.inv k
  have odd := inv.rsp_odd
  refine ⟨fun aligned => ?_, odd, fun e he offset access => ?_⟩
  · have := aligned.1
    omega
  · exact (RvmVm.cycle_cases _).parity inv he access

theorem stack_never_aligned_ret : ¬ AlignedAt (retVm.after 0) ∧
    (retVm.after 0).cpu.regs.rsp.toNat % 2 = 1 ∧
    ∀ e ∈ (retVm.after 0).cycle.events, ∀ offset, e.offset? = some offset →
      (offset.toNat % 2 = 1 ↔ offset ≠ (retVm.after 0).cpu.regs.rip ∧
        ∃ op, (retVm.after 0).pendingOpcode = some op ∧ op.usesStack = true) :=
  stack_never_aligned (show Loads retFile retVm from rfl) 0

/-- Loading the RET image already breaks the alignment of rsp, before any cycle. -/
theorem ret_image_not_aligned : ∃ vm, Loads retFile vm ∧ ¬ ∀ k, AlignedAt (vm.after k) :=
  ⟨retVm, rfl, fun aligned => absurd (aligned 0).1 (by decide)⟩

end RocketVm
