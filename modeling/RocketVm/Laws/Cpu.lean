import RocketVm.Cpu.Cycle
import RocketVm.Laws.Isa

/-!
# What one instruction does

`Outcome cpu mem instr op` lists everything the handler of `op` can do to a machine whose rip
is already past the instruction, with the guard and the trace of each case, and
`handler_outcome` is the inversion: every handler ends in one of these cases. The laws of the
virtual machine are case analyses of `Outcome`, never of the handlers.
-/

namespace RocketVm

open Lib

/-! ## Flag updates -/

/-- The flags an opcode may write: its ticks in the FLAGS table of the specification. -/
def RvmOpcode.flagsWritten : RvmOpcode → Word
  | .add | .sub | .mul | .shl | .cmp => flagsAll
  | .div | .mod => RVM_CPU_FLAG_RZ ||| RVM_CPU_FLAG_RN
  | .shr => RVM_CPU_FLAG_RZ ||| RVM_CPU_FLAG_RN ||| RVM_CPU_FLAG_RC
  | _ => 0

/-- The CPUs agree on everything but the flags in the mask `m`. -/
structure FlagsOnly (m : Word) (cpu cpu' : RvmCpu) : Prop where
  rv : cpu'.regs.rv = cpu.regs.rv
  rip : cpu'.regs.rip = cpu.regs.rip
  rsp : cpu'.regs.rsp = cpu.regs.rsp
  rsb : cpu'.regs.rsb = cpu.regs.rsb
  halt : cpu'.halt = cpu.halt
  kept : cpu'.regs.flags &&& ~~~m = cpu.regs.flags &&& ~~~m

namespace FlagsOnly

variable {m f : Word} {a b c : RvmCpu}

theorem refl (m : Word) (a : RvmCpu) : FlagsOnly m a a := ⟨rfl, rfl, rfl, rfl, rfl, rfl⟩

theorem trans (h : FlagsOnly m a b) (h' : FlagsOnly m b c) : FlagsOnly m a c :=
  ⟨h'.rv.trans h.rv, h'.rip.trans h.rip, h'.rsp.trans h.rsp, h'.rsb.trans h.rsb,
    h'.halt.trans h.halt, h'.kept.trans h.kept⟩

private theorem mask_bit (h : f &&& ~~~m = 0) (i : Nat) (hi : i < 16) :
    f[i] = true → m[i] = true := by
  have := congrArg (fun w : Word => w.getLsbD i) h
  simpa [hi, BitVec.getLsbD_eq_getElem] using this

theorem flagClear (a : RvmCpu) (h : f &&& ~~~m = 0) : FlagsOnly m a (a.flagClear f) := by
  refine ⟨rfl, rfl, rfl, rfl, rfl, ?_⟩
  show (a.regs.flags &&& ~~~f) &&& ~~~m = a.regs.flags &&& ~~~m
  ext i hi
  have := mask_bit h i hi
  simp only [BitVec.getElem_and, BitVec.getElem_not]
  cases hf : f[i] <;> cases hm : m[i] <;> simp_all

theorem flagSet (a : RvmCpu) (h : f &&& ~~~m = 0) : FlagsOnly m a (a.flagSet f) := by
  refine ⟨rfl, rfl, rfl, rfl, rfl, ?_⟩
  show (a.regs.flags ||| f) &&& ~~~m = a.regs.flags &&& ~~~m
  ext i hi
  have := mask_bit h i hi
  simp only [BitVec.getElem_and, BitVec.getElem_or, BitVec.getElem_not]
  cases hf : f[i] <;> cases hm : m[i] <;> simp_all

theorem flagSetIf (a : RvmCpu) (c : Bool) (h : f &&& ~~~m = 0) :
    FlagsOnly m a (a.flagSetIf c f) := by
  cases c
  · exact refl m a
  · exact flagSet a h

theorem setZeroNegative (a : RvmCpu) (result : BitVec 32)
    (h : RVM_CPU_FLAG_RZ &&& ~~~m = 0) (h' : RVM_CPU_FLAG_RN &&& ~~~m = 0) :
    FlagsOnly m a (a.setZeroNegative result) :=
  (flagSetIf a _ h).trans (flagSetIf _ _ h')

/-- The flag updates that ADD, SUB, MUL and SHL share: RZ and RN from the result, then RC and RO. -/
theorem arithmetic (a : RvmCpu) (result : BitVec 32) (carry overflow : Bool) :
    FlagsOnly flagsAll a ((((a.flagClear flagsAll).setZeroNegative result).flagSetIf carry
      RVM_CPU_FLAG_RC).flagSetIf overflow RVM_CPU_FLAG_RO) :=
  (flagClear a (by decide)).trans <| (setZeroNegative _ _ (by decide) (by decide)).trans <|
    (flagSetIf _ _ (by decide)).trans (flagSetIf _ _ (by decide))

end FlagsOnly

/-! ## Arithmetic -/

/-- The events of a computation that divides by nothing but numbers other than zero. -/
def RvmEvent.Quiet : RvmEvent → Prop
  | .int _ | .shift _ => True
  | .divide d => d ≠ 0
  | _ => False

/-- A computation on the CPU: it changes the flags in `m`, and at most the register `rvd`. -/
def Computes (m : Word) (rvd : RvmReg) (cpu cpu' : RvmCpu) : Prop :=
  ∃ mid, FlagsOnly m cpu mid ∧ (cpu' = mid ∨ ∃ v, cpu' = mid.setRv rvd v)

namespace Computes

variable {m : Word} {rvd : RvmReg} {cpu cpu' : RvmCpu}

/-- What setting a register keeps, a computation keeps if it does not depend on the flags. -/
theorem keeps {α : Type} (f : RvmCpu → α) (h : Computes m rvd cpu cpu')
    (flags : ∀ mid, FlagsOnly m cpu mid → f mid = f cpu)
    (register : ∀ mid v, f (mid.setRv rvd v) = f mid) : f cpu' = f cpu := by
  obtain ⟨mid, only, rfl | ⟨v, rfl⟩⟩ := h
  · exact flags _ only
  · exact (register mid v).trans (flags mid only)

theorem rip (h : Computes m rvd cpu cpu') : cpu'.regs.rip = cpu.regs.rip :=
  h.keeps (fun c => c.regs.rip) (fun _ only => only.rip) fun _ _ => rfl

theorem rsp (h : Computes m rvd cpu cpu') : cpu'.regs.rsp = cpu.regs.rsp :=
  h.keeps (fun c => c.regs.rsp) (fun _ only => only.rsp) fun _ _ => rfl

theorem rsb (h : Computes m rvd cpu cpu') : cpu'.regs.rsb = cpu.regs.rsb :=
  h.keeps (fun c => c.regs.rsb) (fun _ only => only.rsb) fun _ _ => rfl

theorem halt (h : Computes m rvd cpu cpu') : cpu'.halt = cpu.halt :=
  h.keeps (fun c => c.halt) (fun _ only => only.halt) fun _ _ => rfl

/-- The registers other than its destination. -/
theorem rv_of_ne (h : Computes m rvd cpu cpu') {r : RvmReg} (other : r ≠ rvd) :
    cpu'.regs.rv r = cpu.regs.rv r :=
  h.keeps (fun c => c.regs.rv r) (fun _ only => congrFun only.rv r) fun _ _ => if_neg other

end Computes

theorem movTo_computes (cpu : RvmCpu) (rvd : RvmReg) (src : Word) :
    Computes 0 rvd cpu (movTo cpu rvd src).val :=
  ⟨cpu, .refl _ _, .inr ⟨src, rfl⟩⟩

theorem addTo_computes (cpu : RvmCpu) (rvd : RvmReg) (src : Word) :
    Computes flagsAll rvd cpu (addTo cpu rvd src).val :=
  ⟨_, FlagsOnly.arithmetic cpu _ _ _, .inr ⟨_, rfl⟩⟩

theorem subtract_flagsOnly (cpu : RvmCpu) (dst src : Word) :
    FlagsOnly flagsAll cpu (subtract cpu dst src).val.1 :=
  FlagsOnly.arithmetic cpu _ _ _

theorem subTo_computes (cpu : RvmCpu) (rvd : RvmReg) (src : Word) :
    Computes flagsAll rvd cpu (subTo cpu rvd src).val :=
  ⟨_, subtract_flagsOnly cpu _ src, .inr ⟨_, rfl⟩⟩

theorem cmpWith_flagsOnly (cpu : RvmCpu) (rvd : RvmReg) (src : Word) :
    FlagsOnly flagsAll cpu (cmpWith cpu rvd src).val :=
  subtract_flagsOnly cpu _ src

theorem mulTo_computes (cpu : RvmCpu) (rvd : RvmReg) (src : Word) :
    Computes flagsAll rvd cpu (mulTo cpu rvd src).val :=
  ⟨_, FlagsOnly.arithmetic cpu _ _ _, .inr ⟨_, rfl⟩⟩

theorem divideTo_computes (operator : Nat → Nat → Nat) (cpu : RvmCpu) (rvd : RvmReg) {src : Word}
    (h : src ≠ 0) :
    Computes (RVM_CPU_FLAG_RZ ||| RVM_CPU_FLAG_RN) rvd cpu (divideTo operator cpu rvd src).val := by
  simp only [divideTo, if_neg h]
  refine ⟨_, ?_, .inr ⟨_, rfl⟩⟩
  exact (FlagsOnly.flagClear cpu (by decide)).trans
    (FlagsOnly.setZeroNegative _ _ (by decide) (by decide))

theorem shlTo_computes (cpu : RvmCpu) (rvd : RvmReg) (src : Word) :
    Computes flagsAll rvd cpu (shlTo cpu rvd src).val := by
  unfold shlTo
  by_cases h : (src &&& 0xF).toNat = 0
  · simp only [h, ↓reduceIte]
    exact ⟨cpu, .refl _ _, .inl rfl⟩
  · simp only [h, ↓reduceIte]
    exact ⟨_, FlagsOnly.arithmetic cpu _ _ _, .inr ⟨_, rfl⟩⟩

theorem shrTo_computes (cpu : RvmCpu) (rvd : RvmReg) (src : Word) :
    Computes (RVM_CPU_FLAG_RZ ||| RVM_CPU_FLAG_RN ||| RVM_CPU_FLAG_RC) rvd cpu
      (shrTo cpu rvd src).val := by
  unfold shrTo
  by_cases h : (src &&& 0xF).toNat = 0
  · simp only [h, ↓reduceIte, Traced.val_bind]
    refine ⟨_, ?_, .inr ⟨_, rfl⟩⟩
    exact (FlagsOnly.flagClear cpu (by decide)).trans
      (FlagsOnly.setZeroNegative _ _ (by decide) (by decide))
  · simp only [h, ↓reduceIte, Traced.val_bind]
    refine ⟨_, ?_, .inr ⟨_, rfl⟩⟩
    exact (FlagsOnly.flagClear cpu (by decide)).trans <|
      (FlagsOnly.setZeroNegative _ _ (by decide) (by decide)).trans
      (FlagsOnly.flagSetIf _ _ (by decide))

/-! ### The traces of the computations -/

theorem addTo_quiet (cpu : RvmCpu) (rvd : RvmReg) (src : Word) :
    (addTo cpu rvd src).All RvmEvent.Quiet := by
  simp [addTo, intResult, RvmEvent.Quiet]

theorem subtract_quiet (cpu : RvmCpu) (dst src : Word) :
    (subtract cpu dst src).All RvmEvent.Quiet := by
  simp [subtract, intResult, RvmEvent.Quiet]

theorem mulTo_quiet (cpu : RvmCpu) (rvd : RvmReg) (src : Word) :
    (mulTo cpu rvd src).All RvmEvent.Quiet := by
  simp [mulTo, intResult, RvmEvent.Quiet]

theorem divideTo_quiet (operator : Nat → Nat → Nat) (cpu : RvmCpu) (rvd : RvmReg) {src : Word}
    (h : src ≠ 0) : (divideTo operator cpu rvd src).All RvmEvent.Quiet := by
  simp only [divideTo, if_neg h, Traced.all_bind, Traced.all_emit, Traced.all_pure, and_true]
  exact h

theorem shlTo_quiet (cpu : RvmCpu) (rvd : RvmReg) (src : Word) :
    (shlTo cpu rvd src).All RvmEvent.Quiet := by
  unfold shlTo
  generalize (src &&& 0xF).toNat = shift
  by_cases h : shift = 0
  · simp only [h, ↓reduceIte, Traced.all_pure]
  · simp [h, intResult, shiftRight, RvmEvent.Quiet]

theorem shrTo_quiet (cpu : RvmCpu) (rvd : RvmReg) (src : Word) :
    (shrTo cpu rvd src).All RvmEvent.Quiet := by
  unfold shrTo
  generalize (src &&& 0xF).toNat = shift
  by_cases h : shift = 0
  · simp [h, shiftRight, RvmEvent.Quiet]
  · simp [h, shiftRight, RvmEvent.Quiet]

/-! ## Addresses -/

/-- An even 16-bit number leaves room for a word: LOAD and STORE refuse exactly the odd
addresses. -/
theorem accessFault_eq_none {outOfBounds unaligned : String} {addr : Word} :
    accessFault outOfBounds unaligned addr = none ↔ addr.toNat % 2 = 0 := by
  have := addr.isLt
  have bit := land_one addr
  unfold accessFault RVM_MEMORY_SIZE
  split
  · next h => exact iff_of_false (Option.some_ne_none _) (by omega)
  · next h =>
    split
    · next h' => exact iff_of_false (Option.some_ne_none _) (fun e => h' (bit.mpr e))
    · next h' => exact iff_of_true rfl (bit.mp (not_not.mp h'))

/-- Control transfers make the check of LOAD and STORE in other words. -/
theorem targetFault_eq_accessFault (outOfBounds unaligned : String) (addr : Word) :
    targetFault outOfBounds unaligned addr = accessFault outOfBounds unaligned addr := by
  have bound : addr.toNat > RVM_MEMORY_SIZE - RVM_CPU_INSTRUCTION_SIZE ↔
      addr.toNat ≥ RVM_MEMORY_SIZE - 1 := by
    unfold RVM_MEMORY_SIZE RVM_CPU_INSTRUCTION_SIZE
    omega
  simp only [targetFault, accessFault, bound]

theorem targetFault_eq_none {outOfBounds unaligned : String} {addr : Word} :
    targetFault outOfBounds unaligned addr = none ↔ addr.toNat % 2 = 0 := by
  rw [targetFault_eq_accessFault, accessFault_eq_none]

/-- A refused address is odd. -/
theorem odd_of_accessFault {outOfBounds unaligned msg : String} {addr : Word}
    (h : accessFault outOfBounds unaligned addr = some msg) : addr.toNat % 2 ≠ 0 :=
  fun even => Option.some_ne_none msg (h ▸ accessFault_eq_none.mpr even)

theorem odd_of_targetFault {outOfBounds unaligned msg : String} {addr : Word}
    (h : targetFault outOfBounds unaligned addr = some msg) : addr.toNat % 2 ≠ 0 :=
  odd_of_accessFault (targetFault_eq_accessFault .. ▸ h)

/-- The text of a refusal is one of the two the handler gives. -/
theorem accessFault_text {outOfBounds unaligned msg : String} {addr : Word}
    (h : accessFault outOfBounds unaligned addr = some msg) :
    msg = outOfBounds ∨ msg = unaligned := by
  unfold accessFault at h
  split at h
  · cases h
    exact .inl rfl
  · split at h
    · cases h
      exact .inr rfl
    · cases h

theorem targetFault_text {outOfBounds unaligned msg : String} {addr : Word}
    (h : targetFault outOfBounds unaligned addr = some msg) :
    msg = outOfBounds ∨ msg = unaligned :=
  accessFault_text (targetFault_eq_accessFault .. ▸ h)

/-! ## The cases of an instruction -/

/-- The opcodes that compute a register from registers and the operand. -/
def RvmOpcode.writesResult : RvmOpcode → Bool
  | .mov | .add | .sub | .mul | .div | .mod | .shl | .shr => true
  | _ => false

/-- The branch condition of a jump. -/
def RvmOpcode.branches (op : RvmOpcode) (cpu : RvmCpu) : Bool :=
  match op with
  | .jmp => true
  | .jz => cpu.flagCheck RVM_CPU_FLAG_RZ
  | .jnz => !cpu.flagCheck RVM_CPU_FLAG_RZ
  | _ => false

theorem RvmOpcode.branches_jumps {op : RvmOpcode} {cpu : RvmCpu} (h : op.branches cpu = true) :
    op = .jmp ∨ op = .jz ∨ op = .jnz := by
  cases op with
  | jmp => exact .inl rfl
  | jz => exact .inr (.inl rfl)
  | jnz => exact .inr (.inr rfl)
  | _ => cases h

theorem RvmOpcode.branches_ne {op : RvmOpcode} {cpu : RvmCpu} (h : op.branches cpu = true) :
    op ≠ .call ∧ op ≠ .ret := by
  cases op <;> simp_all [RvmOpcode.branches]

theorem RvmOpcode.writesResult_ne {op : RvmOpcode} (h : op.writesResult = true) :
    op ≠ .call ∧ op ≠ .ret := by
  cases op <;> simp_all [RvmOpcode.writesResult]

/-- What the handler of an opcode can do to `cpu` and `mem`: the state it leaves and the events
it emits. -/
inductive Outcome (cpu : RvmCpu) (mem : RvmMemory) (instr : RvmInstr) :
    RvmOpcode → RvmCpu × RvmMemory → List RvmEvent → Prop
  | computed {op cpu' events} (writes : op.writesResult = true)
      (divisor : op = .div ∨ op = .mod → instr.source cpu ≠ 0)
      (computes : Computes op.flagsWritten instr.reg cpu cpu')
      (quiet : ∀ e ∈ events, e.Quiet) : Outcome cpu mem instr op (cpu', mem) events
  | compared {cpu' events} (flags : FlagsOnly flagsAll cpu cpu')
      (quiet : ∀ e ∈ events, e.Quiet) : Outcome cpu mem instr .cmp (cpu', mem) events
  | dividedByZero {op} (divides : op = .div ∨ op = .mod) (zero : instr.source cpu = 0) :
      Outcome cpu mem instr op (cpu.setHalt, mem) [.error "rvm_cpu_execute division by 0 error"]
  | loadFault {msg}
      (fault : accessFault "LOAD out of bounds" "LOAD unaligned access" (instr.source cpu) =
        some msg) :
      Outcome cpu mem instr .load (cpu.setHalt, mem) [.fault msg (instr.source cpu)]
  | loaded (even : (instr.source cpu).toNat % 2 = 0) :
      Outcome cpu mem instr .load
        (cpu.setRv instr.reg (mem.word (instr.source cpu).toNat), mem)
        [.read (instr.source cpu)]
  | storeFault {msg}
      (fault : accessFault "STORE out of bounds" "STORE unaligned access" (instr.source cpu) =
        some msg) :
      Outcome cpu mem instr .store (cpu.setHalt, mem) [.fault msg (instr.source cpu)]
  | stored (even : (instr.source cpu).toNat % 2 = 0) :
      Outcome cpu mem instr .store
        (cpu, mem.setWord (instr.source cpu).toNat (cpu.regs.rv instr.reg))
        [.write (instr.source cpu) (cpu.regs.rv instr.reg)]
  | passed {op} (jump : op = .jz ∨ op = .jnz) (untaken : op.branches cpu = false) :
      Outcome cpu mem instr op (cpu, mem) []
  | jumpFault {op msg} (taken : op.branches cpu = true)
      (fault : targetFault "JMP out of bounds" "JMP unaligned access"
        (transferTarget cpu instr) = some msg) :
      Outcome cpu mem instr op (cpu.setHalt, mem) [.fault msg (transferTarget cpu instr)]
  | jumped {op} (taken : op.branches cpu = true)
      (even : (transferTarget cpu instr).toNat % 2 = 0) :
      Outcome cpu mem instr op (cpu.setRip (transferTarget cpu instr), mem) []
  | callFault {msg}
      (fault : targetFault "CALL out of bounds" "CALL unaligned access"
        (transferTarget cpu instr) = some msg) :
      Outcome cpu mem instr .call (cpu.setHalt, mem) [.fault msg (transferTarget cpu instr)]
  | callOverflow (even : (transferTarget cpu instr).toNat % 2 = 0)
      (full : cpu.regs.rsp.toNat < 0xF002) :
      Outcome cpu mem instr .call (cpu.setHalt, mem) [.fault "CALL stack overflow" cpu.regs.rsp]
  | called (even : (transferTarget cpu instr).toNat % 2 = 0)
      (room : 0xF002 ≤ cpu.regs.rsp.toNat) :
      Outcome cpu mem instr .call
        ((cpu.setRsp (cpu.regs.rsp - 2)).setRip (transferTarget cpu instr),
          mem.setWord (cpu.regs.rsp.toNat - 2) cpu.regs.rip)
        [.assign16 ((cpu.regs.rsp.toNat : Int) - 2), .write (cpu.regs.rsp - 2) cpu.regs.rip]
  | exited (empty : 0xFEFE < cpu.regs.rsp.toNat) :
      Outcome cpu mem instr .ret (cpu.setHalt, mem) []
  | returnFault {msg} (nonempty : cpu.regs.rsp.toNat ≤ 0xFEFE)
      (fault : targetFault "RET out of bounds" "RET unaligned access"
        (mem.word cpu.regs.rsp.toNat) = some msg) :
      Outcome cpu mem instr .ret ((cpu.setRsp (cpu.regs.rsp + 2)).setHalt, mem)
        [.read cpu.regs.rsp, .assign16 ((cpu.regs.rsp.toNat : Int) + 2),
          .fault msg (mem.word cpu.regs.rsp.toNat)]
  | returned (nonempty : cpu.regs.rsp.toNat ≤ 0xFEFE)
      (even : (mem.word cpu.regs.rsp.toNat).toNat % 2 = 0) :
      Outcome cpu mem instr .ret
        ((cpu.setRsp (cpu.regs.rsp + 2)).setRip (mem.word cpu.regs.rsp.toNat), mem)
        [.read cpu.regs.rsp, .assign16 ((cpu.regs.rsp.toNat : Int) + 2)]

variable (cpu : RvmCpu) (mem : RvmMemory) (instr : RvmInstr)

private theorem execOnSource_computed {op : RvmOpcode}
    {f : RvmCpu → RvmReg → Word → Traced RvmEvent RvmCpu} (writes : op.writesResult = true)
    (divisor : op = .div ∨ op = .mod → instr.source cpu ≠ 0)
    (computes : Computes op.flagsWritten instr.reg cpu (f cpu instr.reg (instr.source cpu)).val)
    (quiet : (f cpu instr.reg (instr.source cpu)).All RvmEvent.Quiet) :
    Outcome cpu mem instr op (execOnSource f cpu mem instr).val
      (execOnSource f cpu mem instr).events := by
  refine .computed writes divisor computes ?_
  intro e he
  simp only [execOnSource, Traced.events_bind, Traced.events_pure, List.append_nil] at he
  exact quiet e he

private theorem divide_outcome {op : RvmOpcode} (operator : Nat → Nat → Nat)
    (divides : op = .div ∨ op = .mod) :
    Outcome cpu mem instr op (execOnSource (divideTo operator) cpu mem instr).val
      (execOnSource (divideTo operator) cpu mem instr).events := by
  have mask : op.flagsWritten = RVM_CPU_FLAG_RZ ||| RVM_CPU_FLAG_RN := by
    rcases divides with rfl | rfl <;> rfl
  have writes : op.writesResult = true := by
    rcases divides with rfl | rfl <;> rfl
  by_cases h : instr.source cpu = 0
  · have zero : Outcome cpu mem instr op (cpu.setHalt, mem)
        [.error "rvm_cpu_execute division by 0 error"] := .dividedByZero divides h
    simpa [execOnSource, divideTo, h] using zero
  · exact execOnSource_computed cpu mem instr writes (fun _ => h)
      (mask ▸ divideTo_computes operator cpu _ h) (divideTo_quiet operator cpu _ h)

private theorem load_outcome :
    Outcome cpu mem instr .load (rvmCpuExecLoad cpu mem instr).val
      (rvmCpuExecLoad cpu mem instr).events := by
  unfold rvmCpuExecLoad
  cases h : accessFault "LOAD out of bounds" "LOAD unaligned access" (instr.source cpu) with
  | none =>
    simp only [h]
    exact .loaded (accessFault_eq_none.mp h)
  | some msg =>
    simp only [h]
    exact .loadFault h

private theorem store_outcome :
    Outcome cpu mem instr .store (rvmCpuExecStore cpu mem instr).val
      (rvmCpuExecStore cpu mem instr).events := by
  unfold rvmCpuExecStore
  cases h : accessFault "STORE out of bounds" "STORE unaligned access" (instr.source cpu) with
  | none =>
    simp only [h]
    exact .stored (accessFault_eq_none.mp h)
  | some msg =>
    simp only [h]
    exact .storeFault h

private theorem jump_outcome {op : RvmOpcode} (taken : op.branches cpu = true) :
    Outcome cpu mem instr op (rvmCpuExecJmp cpu mem instr).val
      (rvmCpuExecJmp cpu mem instr).events := by
  unfold rvmCpuExecJmp
  cases h : targetFault "JMP out of bounds" "JMP unaligned access" (transferTarget cpu instr) with
  | none =>
    simp only [h]
    exact .jumped taken (targetFault_eq_none.mp h)
  | some msg =>
    simp only [h]
    exact .jumpFault taken h

private theorem jz_outcome :
    Outcome cpu mem instr .jz (rvmCpuExecJz cpu mem instr).val
      (rvmCpuExecJz cpu mem instr).events := by
  unfold rvmCpuExecJz
  cases h : cpu.flagCheck RVM_CPU_FLAG_RZ with
  | true => exact jump_outcome cpu mem instr h
  | false => exact .passed (.inl rfl) h

private theorem jnz_outcome :
    Outcome cpu mem instr .jnz (rvmCpuExecJnz cpu mem instr).val
      (rvmCpuExecJnz cpu mem instr).events := by
  unfold rvmCpuExecJnz
  cases h : !cpu.flagCheck RVM_CPU_FLAG_RZ with
  | true => exact jump_outcome cpu mem instr h
  | false => exact .passed (.inr rfl) h

/-- The stack pointer after a push, as a 16-bit difference. -/
theorem ofInt_sub_two (w : Word) : BitVec.ofInt 16 ((w.toNat : Int) - 2) = w - 2 := by
  rw [Int.sub_eq_add_neg, BitVec.ofInt_add, BitVec.ofInt_natCast, BitVec.ofNat_toNat,
    BitVec.setWidth_eq, BitVec.sub_eq_add_neg]
  rfl

/-- A 16-bit sum, from the exact one. -/
theorem ofInt_add_two (w : Word) : BitVec.ofInt 16 ((w.toNat : Int) + 2) = w + 2 := by
  rw [BitVec.ofInt_add, BitVec.ofInt_natCast, BitVec.ofNat_toNat, BitVec.setWidth_eq]
  rfl

theorem toNat_sub_two {w : Word} (h : 2 ≤ w.toNat) : (w - 2).toNat = w.toNat - 2 := by
  have := w.isLt
  rw [BitVec.toNat_sub]
  show (2 ^ 16 - 2 + w.toNat) % 2 ^ 16 = _
  omega

theorem toNat_add_two {w : Word} (h : w.toNat < 0xFFFE) : (w + 2).toNat = w.toNat + 2 := by
  rw [BitVec.toNat_add]
  show (w.toNat + 2) % 2 ^ 16 = _
  omega

private theorem call_outcome :
    Outcome cpu mem instr .call (rvmCpuExecCall cpu mem instr).val
      (rvmCpuExecCall cpu mem instr).events := by
  unfold rvmCpuExecCall
  cases h : targetFault "CALL out of bounds" "CALL unaligned access" (transferTarget cpu instr) with
  | some msg =>
    simp only [h]
    exact .callFault h
  | none =>
    have even := targetFault_eq_none.mp h
    simp only [h]
    by_cases full : cpu.regs.rsp.toNat < RVM_MEMORY_STACK_START + 2
    · simp only [full, ↓reduceIte]
      exact .callOverflow even full
    · simp only [full, ↓reduceIte, Traced.val_bind, Traced.events_bind, assign16_val,
        assign16_events, rvmMemoryWriteUint16_val, rvmMemoryWriteUint16_events, Traced.val_pure,
        Traced.events_pure, ofInt_sub_two]
      have room : 0xF002 ≤ cpu.regs.rsp.toNat := Nat.not_lt.mp full
      rw [toNat_sub_two (by omega)]
      exact .called even room

private theorem ret_outcome :
    Outcome cpu mem instr .ret (rvmCpuExecRet cpu mem instr).val
      (rvmCpuExecRet cpu mem instr).events := by
  unfold rvmCpuExecRet
  by_cases empty : cpu.regs.rsp.toNat > RVM_MEMORY_STACK_END - 1
  · simp only [empty, ↓reduceIte]
    exact .exited empty
  · have nonempty : cpu.regs.rsp.toNat ≤ 0xFEFE := Nat.not_lt.mp empty
    simp only [empty, ↓reduceIte, Traced.val_bind, Traced.events_bind, assign16_val,
      assign16_events, rvmMemoryReadUint16_val, rvmMemoryReadUint16_events, ofInt_add_two]
    cases h : targetFault "RET out of bounds" "RET unaligned access"
        (mem.word cpu.regs.rsp.toNat) with
    | none => exact .returned nonempty (targetFault_eq_none.mp h)
    | some msg => exact .returnFault nonempty h

/-- **The inversion of the handlers**: each one ends in a case of its opcode. -/
theorem handler_outcome (op : RvmOpcode) :
    Outcome cpu mem instr op (op.handler cpu mem instr).val (op.handler cpu mem instr).events := by
  cases op with
  | mov =>
    exact execOnSource_computed cpu mem instr rfl (by simp) (movTo_computes cpu _ _)
      (Traced.all_pure _ _)
  | load => exact load_outcome cpu mem instr
  | store => exact store_outcome cpu mem instr
  | add =>
    exact execOnSource_computed cpu mem instr rfl (by simp) (addTo_computes cpu _ _)
      (addTo_quiet cpu _ _)
  | sub =>
    refine execOnSource_computed cpu mem instr rfl (by simp) (subTo_computes cpu _ _) ?_
    simpa only [subTo, Traced.all_bind, Traced.all_pure, and_true] using subtract_quiet cpu _ _
  | mul =>
    exact execOnSource_computed cpu mem instr rfl (by simp) (mulTo_computes cpu _ _)
      (mulTo_quiet cpu _ _)
  | div => exact divide_outcome cpu mem instr _ (.inl rfl)
  | mod => exact divide_outcome cpu mem instr _ (.inr rfl)
  | shl =>
    exact execOnSource_computed cpu mem instr rfl (by simp) (shlTo_computes cpu _ _)
      (shlTo_quiet cpu _ _)
  | shr =>
    exact execOnSource_computed cpu mem instr rfl (by simp) (shrTo_computes cpu _ _)
      (shrTo_quiet cpu _ _)
  | cmp =>
    refine .compared (cmpWith_flagsOnly cpu _ _) fun e he =>
      subtract_quiet cpu (cpu.regs.rv instr.reg) (instr.source cpu) e ?_
    simpa [RvmOpcode.handler, rvmCpuExecCmp, execOnSource, cmpWith] using he
  | jmp => exact jump_outcome cpu mem instr rfl
  | jz => exact jz_outcome cpu mem instr
  | jnz => exact jnz_outcome cpu mem instr
  | call => exact call_outcome cpu mem instr
  | ret => exact ret_outcome cpu mem instr

/-! ## The cases of CALL and RET, and of everything else -/

section Cases

variable {cpu : RvmCpu} {mem : RvmMemory} {instr : RvmInstr} {out : RvmCpu × RvmMemory}
  {events : List RvmEvent}

/-- CALL refuses its target, overflows, or pushes and jumps. -/
theorem Outcome.call (h : Outcome cpu mem instr .call out events) :
    (∃ msg, targetFault "CALL out of bounds" "CALL unaligned access" (transferTarget cpu instr) =
        some msg ∧ out = (cpu.setHalt, mem) ∧
        events = [.fault msg (transferTarget cpu instr)]) ∨
    ((transferTarget cpu instr).toNat % 2 = 0 ∧ cpu.regs.rsp.toNat < 0xF002 ∧
        out = (cpu.setHalt, mem) ∧ events = [.fault "CALL stack overflow" cpu.regs.rsp]) ∨
    ((transferTarget cpu instr).toNat % 2 = 0 ∧ 0xF002 ≤ cpu.regs.rsp.toNat ∧
        out = ((cpu.setRsp (cpu.regs.rsp - 2)).setRip (transferTarget cpu instr),
          mem.setWord (cpu.regs.rsp.toNat - 2) cpu.regs.rip) ∧
        events = [.assign16 ((cpu.regs.rsp.toNat : Int) - 2),
          .write (cpu.regs.rsp - 2) cpu.regs.rip]) := by
  cases h with
  | computed writes | jumpFault taken _ | jumped taken _ =>
    simp [RvmOpcode.writesResult, RvmOpcode.branches] at *
  | dividedByZero divides _ => simp at divides
  | passed jump _ => simp at jump
  | callFault fault => exact .inl ⟨_, fault, rfl, rfl⟩
  | callOverflow even full => exact .inr (.inl ⟨even, full, rfl, rfl⟩)
  | called even room => exact .inr (.inr ⟨even, room, rfl, rfl⟩)

/-- RET ends the program, pops a target it refuses, or returns. -/
theorem Outcome.ret (h : Outcome cpu mem instr .ret out events) :
    (0xFEFE < cpu.regs.rsp.toNat ∧ out = (cpu.setHalt, mem) ∧ events = []) ∨
    (cpu.regs.rsp.toNat ≤ 0xFEFE ∧ ∃ msg,
        targetFault "RET out of bounds" "RET unaligned access" (mem.word cpu.regs.rsp.toNat) =
          some msg ∧ out = ((cpu.setRsp (cpu.regs.rsp + 2)).setHalt, mem) ∧
        events = [.read cpu.regs.rsp, .assign16 ((cpu.regs.rsp.toNat : Int) + 2),
          .fault msg (mem.word cpu.regs.rsp.toNat)]) ∨
    (cpu.regs.rsp.toNat ≤ 0xFEFE ∧ (mem.word cpu.regs.rsp.toNat).toNat % 2 = 0 ∧
        out = ((cpu.setRsp (cpu.regs.rsp + 2)).setRip (mem.word cpu.regs.rsp.toNat), mem) ∧
        events = [.read cpu.regs.rsp, .assign16 ((cpu.regs.rsp.toNat : Int) + 2)]) := by
  cases h with
  | computed writes | jumpFault taken _ | jumped taken _ =>
    simp [RvmOpcode.writesResult, RvmOpcode.branches] at *
  | dividedByZero divides _ => simp at divides
  | passed jump _ => simp at jump
  | exited empty => exact .inl ⟨empty, rfl, rfl⟩
  | returnFault nonempty fault => exact .inr (.inl ⟨nonempty, _, fault, rfl, rfl⟩)
  | returned nonempty even => exact .inr (.inr ⟨nonempty, even, rfl, rfl⟩)

/-- The other opcodes keep rsp and never speak of the stack. -/
theorem Outcome.other {op : RvmOpcode} (h : Outcome cpu mem instr op out events)
    (call : op ≠ .call) (ret : op ≠ .ret) :
    out.1.regs.rsp = cpu.regs.rsp ∧
      ∀ value, .fault "CALL stack overflow" value ∉ events := by
  cases h with
  | computed _ _ computes quiet => exact ⟨computes.rsp, fun v hv => quiet _ hv⟩
  | compared flags quiet => exact ⟨flags.rsp, fun v hv => quiet _ hv⟩
  | loadFault fault | storeFault fault =>
    refine ⟨rfl, fun v hv => ?_⟩
    cases List.mem_singleton.mp hv
    rcases accessFault_text fault with h | h <;> exact absurd h (by decide)
  | jumpFault _ fault =>
    refine ⟨rfl, fun v hv => ?_⟩
    cases List.mem_singleton.mp hv
    rcases targetFault_text fault with h | h <;> exact absurd h (by decide)
  | dividedByZero | loaded | stored | passed | jumped => exact ⟨rfl, by simp⟩
  | callFault | callOverflow | called => exact absurd rfl call
  | exited | returnFault | returned => exact absurd rfl ret

end Cases

end RocketVm
