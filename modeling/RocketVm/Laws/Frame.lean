import RocketVm.Laws.Vm

/-!
# The footprint of a cycle

What a cycle leaves alone. `Footprint` is the frame of an instruction, opcode by opcode, and holds
of every cycle that fetches (`cycle_footprint`). `RvmVm.faults` says of the state before a cycle
whether its instruction ends in an error; an instruction that does is rolled back completely, with
one exception (`faults_atomic`): RET has already moved rsp when it looks at the address it popped.
-/

namespace RocketVm

open Lib

/-! ## Frames -/

/-- The opcodes that may write the register of the reg field. -/
def RvmOpcode.writesRegister : RvmOpcode → Bool
  | .mov | .load | .add | .sub | .mul | .div | .mod | .shl | .shr => true
  | _ => false

theorem RvmOpcode.writesRegister_of_writesResult {op : RvmOpcode} (h : op.writesResult = true) :
    op.writesRegister = true := by
  cases op <;> first | rfl | cases h

/-- What a cycle that executes `instr` may change, from `vm` to `vm'`. -/
structure Footprint (vm : RvmVm) (instr : RvmInstr) (op : RvmOpcode) (vm' : RvmVm) : Prop where
  /-- STORE replaces the word at its checked address, CALL the one below rsp. -/
  memory : vm'.mem = vm.mem ∨
    (op = .store ∧
      accessFault "STORE out of bounds" "STORE unaligned access" (instr.source vm.cpu) = none ∧
      vm'.mem = vm.mem.setWord (instr.source vm.cpu).toNat (vm.cpu.regs.rv instr.reg)) ∨
    (op = .call ∧ vm'.mem = vm.mem.setWord (vm.cpu.regs.rsp - 2).toNat (vm.cpu.regs.rip + 2))
  /-- No byte changes but the two of that word. -/
  bytes : ∀ i, vm'.mem.byte i ≠ vm.mem.byte i →
    (op = .store ∧ (i = (instr.source vm.cpu).toNat ∨ i = (instr.source vm.cpu).toNat + 1)) ∨
    (op = .call ∧ (i = (vm.cpu.regs.rsp - 2).toNat ∨ i = (vm.cpu.regs.rsp - 2).toNat + 1))
  rv : ∀ r, vm'.cpu.regs.rv r ≠ vm.cpu.regs.rv r → r = instr.reg ∧ op.writesRegister = true
  rsp : vm'.cpu.regs.rsp ≠ vm.cpu.regs.rsp → op = .call ∨ op = .ret
  rsb : vm'.cpu.regs.rsb = vm.cpu.regs.rsb
  rip : vm'.cpu.regs.rip ≠ vm.cpu.regs.rip + 2 →
    op.branches vm.cpu = true ∨ op = .call ∨ op = .ret
  /-- The flags without a tick in the table, and the unused bits. -/
  flags : vm'.cpu.regs.flags &&& ~~~op.flagsWritten = vm.cpu.regs.flags &&& ~~~op.flagsWritten

section Frame

variable {vm : RvmVm} {instr : RvmInstr} {op : RvmOpcode}

/-- An instruction that touches neither memory nor a register but rip and the flags it may
write. -/
private theorem Footprint.ofFlags {cpu' : RvmCpu}
    (flags : FlagsOnly op.flagsWritten vm.fetched cpu') :
    Footprint vm instr op ⟨cpu', vm.mem⟩ where
  memory := .inl rfl
  bytes _ h := absurd rfl h
  rv r h := absurd (congrFun flags.rv r) h
  rsp h := absurd flags.rsp h
  rsb := flags.rsb
  rip h := absurd flags.rip h
  flags := flags.kept

/-- An instruction that in addition writes the register of its reg field. -/
private theorem Footprint.ofRegister {mid : RvmCpu} (writes : op.writesRegister = true)
    (flags : FlagsOnly op.flagsWritten vm.fetched mid) (v : Word) :
    Footprint vm instr op ⟨mid.setRv instr.reg v, vm.mem⟩ := by
  have kept : Footprint vm instr op ⟨mid, vm.mem⟩ := .ofFlags flags
  refine { kept with rv := fun r h => ⟨?_, writes⟩ }
  by_contra other
  refine h ?_
  show (if r = instr.reg then v else mid.regs.rv r) = _
  rw [if_neg other]
  exact congrFun flags.rv r

/-- A halt keeps the whole footprint. -/
private theorem Footprint.setHalt {vm' : RvmVm} (h : Footprint vm instr op vm') :
    Footprint vm instr op ⟨vm'.cpu.setHalt, vm'.mem⟩ :=
  ⟨h.memory, h.bytes, h.rv, h.rsp, h.rsb, h.rip, h.flags⟩

private theorem Footprint.unchanged : Footprint vm instr op ⟨vm.fetched, vm.mem⟩ :=
  .ofFlags (.refl _ _)

/-- An instruction whose footprint is in the registers alone: a jump, a fault, a return. -/
private theorem Footprint.ofControl {rsp rip : Word} (halt : Bool)
    (pops : rsp ≠ vm.cpu.regs.rsp → op = .call ∨ op = .ret)
    (moves : rip ≠ vm.cpu.regs.rip + 2 → op.branches vm.cpu = true ∨ op = .call ∨ op = .ret) :
    Footprint vm instr op
      ⟨{ halt := halt, regs := { vm.cpu.regs with rsp := rsp, rip := rip } }, vm.mem⟩ where
  memory := .inl rfl
  bytes _ h := absurd rfl h
  rv _ h := absurd rfl h
  rsp := pops
  rsb := rfl
  rip := moves
  flags := rfl

/-- Every case of an instruction stays in its footprint. -/
theorem Outcome.footprint {cpu' : RvmCpu} {mem' : RvmMemory} {events : List RvmEvent}
    (h : Outcome vm.fetched vm.mem instr op (cpu', mem') events) :
    Footprint vm instr op ⟨cpu', mem'⟩ := by
  have same : vm.fetched.regs.rsp = vm.cpu.regs.rsp := rfl
  cases h with
  | computed writes _ computes _ =>
    obtain ⟨mid, flags, rfl | ⟨v, rfl⟩⟩ := computes
    · exact .ofFlags flags
    · exact .ofRegister (RvmOpcode.writesRegister_of_writesResult writes) flags v
  | compared flags _ => exact .ofFlags flags
  | loaded _ => exact .ofRegister rfl (.refl _ _) _
  | stored even =>
    have inside : (instr.source vm.fetched).toNat + 1 < 0x10000 := by
      have := (instr.source vm.fetched).isLt
      omega
    refine { Footprint.unchanged with memory := ?_, bytes := fun i h => ?_ }
    · exact .inr (.inl ⟨rfl, accessFault_eq_none.mpr even, rfl⟩)
    · refine .inl ⟨rfl, ?_⟩
      by_contra other
      obtain ⟨low, high⟩ := not_or.mp other
      exact h (vm.mem.byte_setWord_of_ne _ inside low high)
  | passed _ _ => exact .unchanged
  | jumped taken _ => exact .ofControl _ (fun h => absurd rfl h) fun _ => .inl taken
  | called _ room =>
    have slot : (vm.cpu.regs.rsp - 2).toNat = vm.cpu.regs.rsp.toNat - 2 :=
      toNat_sub_two (by rw [same] at room; omega)
    have inside : vm.cpu.regs.rsp.toNat - 2 + 1 < 0x10000 := by
      have := vm.cpu.regs.rsp.isLt
      omega
    refine ⟨.inr (.inr ⟨rfl, ?_⟩), fun i h => .inr ⟨rfl, ?_⟩, fun r h => absurd rfl h,
      fun _ => .inl rfl, rfl, fun _ => .inr (.inl rfl), rfl⟩
    · rw [slot]
      rfl
    · rw [slot]
      by_contra other
      obtain ⟨low, high⟩ := not_or.mp other
      exact h (vm.mem.byte_setWord_of_ne _ inside low high)
  | returnFault _ _ | returned _ _ =>
    exact .ofControl _ (fun _ => .inr rfl) fun _ => .inr (.inr rfl)
  | _ => exact Footprint.unchanged.setHalt

end Frame

/-- **The frame of a cycle.** A machine that fetches changes nothing outside the footprint of the
opcode in the word at rip. -/
theorem cycle_footprint (vm : RvmVm) (running : vm.cpu.halt = false)
    (inside : vm.cpu.regs.rip.toNat ≤ 0x7FFD) :
    ∃ op : RvmOpcode, (rvmDecode (vm.mem.word vm.cpu.regs.rip.toNat)).opcode = op.code ∧
      Footprint vm (rvmDecode (vm.mem.word vm.cpu.regs.rip.toNat)) op vm.cycle.val.2 := by
  have pending := RvmVm.pending_eq_some.mpr ⟨running, inside, rfl⟩
  obtain ⟨op, hop⟩ := rvmDecode_opcode_code (vm.mem.word vm.cpu.regs.rip.toNat)
  refine ⟨op, hop, ?_⟩
  rw [RvmVm.cycle_of_pending pending hop]
  exact (handler_outcome vm.fetched vm.mem _ op).footprint

/-- A machine with RC set, about to execute CALL +2. -/
def carryCallVm : RvmVm :=
  { cpu := freshVm.cpu.flagSet RVM_CPU_FLAG_RC, mem := freshVm.mem.copy [0x02, 0xE0] }

theorem cycle_footprint_call : ∃ op : RvmOpcode,
    (rvmDecode (carryCallVm.mem.word carryCallVm.cpu.regs.rip.toNat)).opcode = op.code ∧
      Footprint carryCallVm (rvmDecode (carryCallVm.mem.word carryCallVm.cpu.regs.rip.toNat)) op
        carryCallVm.cycle.val.2 :=
  cycle_footprint carryCallVm rfl (by decide)

/-! ## Errors -/

/-- The CPU reports an error: every other event is silent. -/
def RvmEvent.isError : RvmEvent → Bool
  | .error _ | .fault _ _ => true
  | _ => false

/-- The instruction ends in an error, as the state it starts from tells. -/
def RvmOpcode.faults (op : RvmOpcode) (cpu : RvmCpu) (mem : RvmMemory) (instr : RvmInstr) : Prop :=
  match op with
  | .div | .mod => instr.source cpu = 0
  | .load => accessFault "LOAD out of bounds" "LOAD unaligned access" (instr.source cpu) ≠ none
  | .store => accessFault "STORE out of bounds" "STORE unaligned access" (instr.source cpu) ≠ none
  | .jmp | .jz | .jnz => op.branches cpu = true ∧
      targetFault "JMP out of bounds" "JMP unaligned access" (transferTarget cpu instr) ≠ none
  | .call =>
      targetFault "CALL out of bounds" "CALL unaligned access" (transferTarget cpu instr) ≠ none ∨
      cpu.regs.rsp.toNat < 0xF002
  | .ret => cpu.regs.rsp.toNat ≤ 0xFEFE ∧
      targetFault "RET out of bounds" "RET unaligned access" (mem.word cpu.regs.rsp.toNat) ≠ none
  | _ => False

/-- The next cycle executes an instruction that ends in an error. -/
def RvmVm.faults (vm : RvmVm) : Prop :=
  ∃ instr op, vm.pending = some instr ∧ vm.pendingOpcode = some op ∧
    op.faults vm.fetched vm.mem instr

theorem RvmVm.faults_iff {vm : RvmVm} {instr : RvmInstr} {op : RvmOpcode}
    (pending : vm.pending = some instr) (opcode : vm.pendingOpcode = some op) :
    vm.faults ↔ op.faults vm.fetched vm.mem instr := by
  constructor
  · rintro ⟨instr', op', pending', opcode', faults⟩
    cases pending.symm.trans pending'
    cases opcode.symm.trans opcode'
    exact faults
  · intro faults
    exact ⟨instr, op, pending, opcode, faults⟩

theorem RvmEvent.Quiet.isError {e : RvmEvent} (h : e.Quiet) : e.isError = false := by
  cases e <;> first | rfl | exact h.elim

theorem RvmOpcode.not_faults_of_writesResult {op : RvmOpcode} {cpu : RvmCpu} {mem : RvmMemory}
    {instr : RvmInstr} (writes : op.writesResult = true)
    (divisor : op = .div ∨ op = .mod → instr.source cpu ≠ 0) : ¬ op.faults cpu mem instr := by
  intro h
  cases op with
  | div => exact divisor (.inl rfl) h
  | mod => exact divisor (.inr rfl) h
  | mov | add | sub | mul | shl | shr => exact h
  | _ => cases writes

theorem RvmOpcode.faults_of_branches {op : RvmOpcode} {cpu : RvmCpu} {mem : RvmMemory}
    {instr : RvmInstr} (taken : op.branches cpu = true) : op.faults cpu mem instr ↔
      targetFault "JMP out of bounds" "JMP unaligned access" (transferTarget cpu instr) ≠ none := by
  cases op with
  | jmp | jz | jnz => exact and_iff_right taken
  | _ => cases taken

section Errors

variable {cpu : RvmCpu} {mem : RvmMemory} {instr : RvmInstr} {op : RvmOpcode}
  {out : RvmCpu × RvmMemory} {events : List RvmEvent}

/-- The errors of a handler are those its state foretells. -/
theorem Outcome.isError_iff (h : Outcome cpu mem instr op out events) :
    (∃ e ∈ events, e.isError = true) ↔ op.faults cpu mem instr := by
  have silent : ∀ {events : List RvmEvent}, (∀ e ∈ events, e.Quiet) →
      ¬ ∃ e ∈ events, e.isError = true := by
    rintro events quiet ⟨e, he, error⟩
    rw [(quiet e he).isError] at error
    cases error
  cases h with
  | computed writes divisor _ quiet =>
    exact iff_of_false (silent quiet) (RvmOpcode.not_faults_of_writesResult writes divisor)
  | compared _ quiet => exact iff_of_false (silent quiet) id
  | dividedByZero divides zero =>
    refine iff_of_true ⟨_, List.mem_singleton.mpr rfl, rfl⟩ ?_
    rcases divides with rfl | rfl <;> exact zero
  | loadFault fault | storeFault fault =>
    refine iff_of_true ⟨_, List.mem_singleton.mpr rfl, rfl⟩ ?_
    exact fun none => Option.some_ne_none _ (fault.symm.trans none)
  | loaded even | stored even =>
    refine iff_of_false (by simp [RvmEvent.isError]) fun refused => ?_
    exact refused (accessFault_eq_none.mpr even)
  | passed jump untaken =>
    refine iff_of_false (by simp) fun faults => ?_
    rcases jump with rfl | rfl <;> exact Bool.false_ne_true (untaken.symm.trans faults.1)
  | jumpFault taken fault =>
    refine iff_of_true ⟨_, List.mem_singleton.mpr rfl, rfl⟩ ?_
    rw [RvmOpcode.faults_of_branches taken, fault]
    exact Option.some_ne_none _
  | jumped taken even =>
    refine iff_of_false (by simp) ?_
    rw [RvmOpcode.faults_of_branches taken]
    exact not_not.mpr (targetFault_eq_none.mpr even)
  | callFault fault =>
    refine iff_of_true ⟨_, List.mem_singleton.mpr rfl, rfl⟩ (.inl ?_)
    exact fun none => Option.some_ne_none _ (fault.symm.trans none)
  | callOverflow _ full => exact iff_of_true ⟨_, List.mem_singleton.mpr rfl, rfl⟩ (.inr full)
  | called even room =>
    refine iff_of_false (by simp [RvmEvent.isError]) ?_
    rintro (refused | full)
    · exact refused (targetFault_eq_none.mpr even)
    · omega
  | exited empty => exact iff_of_false (by simp) fun faults => absurd faults.1 (by omega)
  | returnFault nonempty fault =>
    have last : ∀ {a b c : RvmEvent}, c ∈ [a, b, c] := by simp
    refine iff_of_true ⟨_, last, rfl⟩ ⟨nonempty, ?_⟩
    exact fun none => Option.some_ne_none _ (fault.symm.trans none)
  | returned _ even =>
    refine iff_of_false (by simp [RvmEvent.isError]) fun faults => ?_
    exact faults.2 (targetFault_eq_none.mpr even)

/-- An instruction that ends in an error halts and does nothing else, save that RET has popped. -/
theorem Outcome.of_faults (h : Outcome cpu mem instr op out events)
    (faults : op.faults cpu mem instr) :
    (op ≠ .ret ∧ out = (cpu.setHalt, mem)) ∨
      (op = .ret ∧ out = ((cpu.setRsp (cpu.regs.rsp + 2)).setHalt, mem)) := by
  have loud := h.isError_iff.mpr faults
  cases h with
  | computed writes divisor _ _ =>
    exact absurd faults (RvmOpcode.not_faults_of_writesResult writes divisor)
  | compared _ _ => exact faults.elim
  | dividedByZero divides _ =>
    refine .inl ⟨?_, rfl⟩
    rcases divides with rfl | rfl <;> exact RvmOpcode.noConfusion
  | loadFault _ | storeFault _ | callFault _ | callOverflow _ _ =>
    exact .inl ⟨RvmOpcode.noConfusion, rfl⟩
  | jumpFault taken _ =>
    refine .inl ⟨fun ret => ?_, rfl⟩
    rw [ret] at taken
    cases taken
  | returnFault _ _ => exact .inr ⟨rfl, rfl⟩
  | loaded _ | stored _ =>
    obtain ⟨e, he, error⟩ := loud
    cases List.mem_singleton.mp he
    cases error
  | called _ _ | returned _ _ =>
    obtain ⟨e, he, error⟩ := loud
    rcases List.mem_cons.mp he with rfl | he
    · cases error
    · cases List.mem_singleton.mp he
      cases error
  | passed _ _ | jumped _ _ | exited _ =>
    obtain ⟨e, he, _⟩ := loud
    exact absurd he List.not_mem_nil

end Errors

/-! ## Atomicity -/

namespace RvmVm

/-- The next cycle executes an instruction and reports an error. -/
def EndsInError (vm : RvmVm) : Prop :=
  vm.pending.isSome = true ∧ ∃ e ∈ vm.cycle.events, e.isError = true

/-- What a cycle from `vm` leaves when it has done nothing but report an error: the machine halts
at the following instruction. -/
structure RolledBack (vm vm' : RvmVm) : Prop where
  halt : vm'.cpu.halt = true
  rip : vm'.cpu.regs.rip = vm.cpu.regs.rip + 2
  rv : ∀ r, vm'.cpu.regs.rv r = vm.cpu.regs.rv r
  rsp : vm'.cpu.regs.rsp = vm.cpu.regs.rsp
  rsb : vm'.cpu.regs.rsb = vm.cpu.regs.rsb
  flags : vm'.cpu.regs.flags = vm.cpu.regs.flags
  bytes : ∀ i, vm'.mem.byte i = vm.mem.byte i

theorem add_two_ne (w : Word) : w + 2 ≠ w := by
  intro same
  have := congrArg BitVec.toNat same
  rw [BitVec.toNat_add] at this
  have size := w.isLt
  change (w.toNat + 2) % 2 ^ 16 = w.toNat at this
  omega

/-- An executed instruction reports an error exactly when the state before it foretells one. -/
theorem endsInError_iff (vm : RvmVm) : vm.EndsInError ↔ vm.faults := by
  have cases_ := vm.cycle_cases
  unfold EndsInError
  generalize vm.cycle.val.1 = ret, vm.cycle.val.2 = vm', vm.cycle.events = events at cases_
  cases cases_ with
  | halted halt =>
    refine iff_of_false (by simp) ?_
    rintro ⟨_, op, _, opcode, _⟩
    cases (pendingOpcode_of_halt halt).symm.trans opcode
  | ripOutOfBounds _ out =>
    refine iff_of_false ?_ ?_
    · rintro ⟨some, _⟩
      obtain ⟨instr, pending⟩ := Option.isSome_iff_exists.mp some
      have := (pending_eq_some.mp pending).2.1
      omega
    · rintro ⟨_, op, _, opcode, _⟩
      cases (pendingOpcode_of_out out).symm.trans opcode
  | executed pending opcode outcome =>
    rename_i instr op cpu' mem' events
    have silent : ∀ e : RvmEvent, e ∈ RvmEvent.read vm.cpu.regs.rip ::
        .assign16 ((vm.cpu.regs.rip.toNat : Int) + 2) :: events →
        e.isError = true → e ∈ events := by
      intro e he error
      rcases List.mem_cons.mp he with rfl | he
      · cases error
      · rcases List.mem_cons.mp he with rfl | he
        · cases error
        · exact he
    rw [faults_iff pending opcode, ← outcome.isError_iff]
    constructor
    · rintro ⟨_, e, he, error⟩
      exact ⟨e, silent e he error, error⟩
    · rintro ⟨e, he, error⟩
      exact ⟨by rw [pending]; rfl, e, List.mem_cons_of_mem _ (List.mem_cons_of_mem _ he), error⟩

/-- What a cycle leaves whose instruction ends in an error. -/
theorem cycle_of_faults {vm : RvmVm} (h : vm.faults) :
    (vm.pendingOpcode ≠ some .ret ∧ vm.cycle.val.2 = ⟨vm.fetched.setHalt, vm.mem⟩) ∨
      (vm.pendingOpcode = some .ret ∧
        vm.cycle.val.2 = ⟨(vm.fetched.setRsp (vm.cpu.regs.rsp + 2)).setHalt, vm.mem⟩) := by
  obtain ⟨instr, op, pending, opcode, faults⟩ := h
  rw [cycle_val pending opcode, opcode]
  rcases (handler_outcome vm.fetched vm.mem instr op).of_faults faults with ⟨ret, out⟩ | ⟨ret, out⟩
  · refine .inl ⟨fun h => ret (Option.some.inj h), ?_⟩
    show RvmVm.mk (op.handler vm.fetched vm.mem instr).val.1 _ = _
    rw [out]
  · refine .inr ⟨congrArg some ret, ?_⟩
    show RvmVm.mk (op.handler vm.fetched vm.mem instr).val.1 _ = _
    rw [out]
    rfl

/-- An instruction that ends in an error leaves the machine as it was, unless it is a RET. -/
theorem rolledBack_iff {vm : RvmVm} (h : vm.faults) :
    vm.RolledBack vm.cycle.val.2 ↔ vm.pendingOpcode ≠ some .ret := by
  rcases cycle_of_faults h with ⟨ret, after⟩ | ⟨ret, after⟩
  · refine iff_of_true ?_ ret
    rw [after]
    exact ⟨rfl, rfl, fun _ => rfl, rfl, rfl, rfl, fun _ => rfl⟩
  · refine iff_of_false (fun rolled => ?_) (not_not.mpr ret)
    have kept := rolled.rsp
    rw [after] at kept
    exact add_two_ne _ kept

end RvmVm

/-- **Errors are atomic up to RET.** Along every run, an instruction that ends in an error is
rolled back if and only if it is not a RET: a RET that refuses its return address has popped it. -/
theorem faults_atomic (vm : RvmVm) (k : Nat) :
    ((vm.after k).EndsInError → (vm.after k).RolledBack (vm.after (k + 1))) ↔
      ¬ ((vm.after k).pendingOpcode = some .ret ∧ (vm.after k).faults) := by
  rw [RvmVm.endsInError_iff, RvmVm.after_succ]
  constructor
  · rintro rolled ⟨ret, faults⟩
    exact (RvmVm.rolledBack_iff faults).mp (rolled faults) ret
  · intro harmless faults
    exact (RvmVm.rolledBack_iff faults).mpr fun ret => harmless ⟨ret, faults⟩

/-- A subroutine that overwrites half of its return address before it returns. -/
def brokenReturn : List Byte :=
  [ 0x0A, 0x10  -- 0: LOAD rv0, [10]
  , 0x0C, 0x12  -- 2: LOAD rv1, [12]
  , 0x00, 0xE0  -- 4: CALL 6
  , 0x00, 0x23  -- 6: STORE [rv0], rv1
  , 0x00, 0xF0  -- 8: RET
  , 0xFC, 0xFE, 0x00, 0x01 ]

/-- Its RET refuses the address 1, and rsp has moved. -/
theorem broken_return_not_atomic : ¬ ∀ (file : RvmFile) (vm : RvmVm) (k : Nat), Loads file vm →
    (vm.after k).EndsInError → (vm.after k).RolledBack (vm.after (k + 1)) := by
  intro atomic
  let vm : RvmVm := { freshVm with mem := freshVm.mem.copy brokenReturn }
  have error : (vm.after 4).EndsInError := ⟨by decide +kernel, by decide +kernel⟩
  have kept := (atomic { content := brokenReturn } vm 4 rfl error).rsp
  have moved : (vm.after 5).cpu.regs.rsp ≠ (vm.after 4).cpu.regs.rsp := by decide +kernel
  exact moved kept

end RocketVm
