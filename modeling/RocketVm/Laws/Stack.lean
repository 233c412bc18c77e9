import RocketVm.Laws.Safety
import Mathlib.Data.Nat.Count

/-!
# The call stack

What CALL and RET do to rsp and to the stack region. `StackCase` says once what a cycle can do to
the stack: push, pop, store, or leave it alone. `stack_account` ties rsp to the number of pending
calls in every reachable state, and `pending_calls` ties the bytes of the stack to the calls
themselves, as long as no STORE reaches the live part of the stack.
-/

namespace RocketVm

open Lib

/-! ## What a cycle does to the stack -/

def RvmEvent.isRead : RvmEvent → Bool
  | .read _ => true
  | _ => false

namespace RvmVm

/-- The next cycle is a CALL that completes: it ends without a fault. -/
def completesCall (vm : RvmVm) : Bool :=
  decide (vm.pendingOpcode = some .call) && !vm.cycle.val.2.cpu.halt

/-- The next cycle is a RET that pops: it reads memory once more after its fetch. -/
def popsRet (vm : RvmVm) : Bool :=
  decide (vm.pendingOpcode = some .ret) && decide (vm.cycle.events.countP RvmEvent.isRead = 2)

end RvmVm

/-- What a cycle does to the stack, by whether it completes a CALL and whether it pops. -/
inductive StackCase (vm : RvmVm) (events : List RvmEvent) : Bool → Bool → RvmVm → Prop
  | push {vm'} (room : 0xF002 ≤ vm.cpu.regs.rsp.toNat)
      (rsp : vm'.cpu.regs.rsp = vm.cpu.regs.rsp - 2)
      (mem : vm'.mem = vm.mem.setWord (vm.cpu.regs.rsp.toNat - 2) (vm.cpu.regs.rip + 2)) :
      StackCase vm events true false vm'
  | pop {vm'} (nonempty : vm.cpu.regs.rsp.toNat ≤ 0xFEFE)
      (rsp : vm'.cpu.regs.rsp = vm.cpu.regs.rsp + 2) (mem : vm'.mem = vm.mem)
      (lands : (vm.mem.word vm.cpu.regs.rsp.toNat).toNat % 2 = 0 →
        vm'.cpu.halt = false ∧ vm'.cpu.regs.rip = vm.mem.word vm.cpu.regs.rsp.toNat) :
      StackCase vm events false true vm'
  | store {vm'} {offset data} (opcode : vm.pendingOpcode = some .store)
      (write : .write offset data ∈ events) (even : offset.toNat % 2 = 0)
      (rsp : vm'.cpu.regs.rsp = vm.cpu.regs.rsp)
      (mem : vm'.mem = vm.mem.setWord offset.toNat data) : StackCase vm events false false vm'
  | keep {vm'} (rsp : vm'.cpu.regs.rsp = vm.cpu.regs.rsp) (mem : vm'.mem = vm.mem) :
      StackCase vm events false false vm'

/-- The stack cases of a cycle. -/
theorem CycleCase.stack {vm vm' : RvmVm} {ret : Int} {events : List RvmEvent}
    (h : CycleCase vm ret vm' events) :
    StackCase vm events (decide (vm.pendingOpcode = some .call) && !vm'.cpu.halt)
      (decide (vm.pendingOpcode = some .ret) && decide (events.countP RvmEvent.isRead = 2))
      vm' := by
  have idle : ∀ {c r : Bool}, vm.pendingOpcode = none → StackCase vm events
      (decide (vm.pendingOpcode = some .call) && c)
      (decide (vm.pendingOpcode = some .ret) && r) vm := by
    intro c r none
    rw [none]
    exact .keep rfl rfl
  cases h with
  | halted halt => exact idle (RvmVm.pendingOpcode_of_halt halt)
  | ripOutOfBounds _ out => exact idle (RvmVm.pendingOpcode_of_out out)
  | executed pending opcode outcome =>
    have running : vm.fetched.halt = false := (RvmVm.pending_eq_some.mp pending).1
    rw [opcode]
    cases outcome with
    | computed writes _ computes _ =>
      obtain ⟨h1, h2⟩ := RvmOpcode.writesResult_ne writes
      simp only [Option.some.injEq, h1, h2, decide_false, Bool.false_and]
      exact .keep computes.rsp rfl
    | compared flags _ => exact .keep flags.rsp rfl
    | dividedByZero divides _ => rcases divides with rfl | rfl <;> exact .keep rfl rfl
    | loadFault _ | loaded _ | storeFault _ => exact .keep rfl rfl
    | stored even => exact .store opcode (by simp) even rfl rfl
    | passed jump _ => rcases jump with rfl | rfl <;> exact .keep rfl rfl
    | jumpFault taken _ | jumped taken _ =>
      obtain ⟨h1, h2⟩ := RvmOpcode.branches_ne taken
      simp only [Option.some.injEq, h1, h2, decide_false, Bool.false_and]
      exact .keep rfl rfl
    | callFault _ | callOverflow _ _ => exact .keep rfl rfl
    | called _ room =>
      simp only [decide_true, Bool.true_and, RvmCpu.setRip_halt, RvmCpu.setRsp_halt, running]
      exact .push room rfl rfl
    | exited _ => exact .keep rfl rfl
    | returnFault nonempty fault =>
      exact .pop nonempty rfl rfl fun even => absurd even (odd_of_targetFault fault)
    | returned nonempty even => exact .pop nonempty rfl rfl fun _ => ⟨running, rfl⟩

theorem RvmVm.stack_cases (vm : RvmVm) :
    StackCase vm vm.cycle.events vm.completesCall vm.popsRet vm.cycle.val.2 :=
  (RvmVm.cycle_cases vm).stack

/-! ## Depth -/

/-- A cycle reports a stack overflow. -/
def Overflows (events : List RvmEvent) : Prop :=
  ∃ value, .fault "CALL stack overflow" value ∈ events

/-- What a cycle from `vm` to `vm'` with the trace `events` does to the stack, when `d` calls are
pending. -/
structure StackDiscipline (vm : RvmVm) (d : Nat) (vm' : RvmVm) (events : List RvmEvent) : Prop where
  /-- CALL writes inside the stack region only. -/
  callWrites : vm.pendingOpcode = some .call → ∀ offset data, .write offset data ∈ events →
    RVM_MEMORY_STACK_START ≤ offset.toNat ∧ offset.toNat + 1 ≤ RVM_MEMORY_STACK_END
  /-- CALL overflows exactly when its target is valid and the next slot leaves the region. -/
  callOverflows : ∀ instr, vm.pending = some instr → vm.pendingOpcode = some .call →
    (Overflows events ↔
      ((transferTarget vm.fetched instr).toNat ≤ RVM_MEMORY_SIZE - RVM_CPU_INSTRUCTION_SIZE ∧
        (transferTarget vm.fetched instr).toNat % 2 = 0) ∧
      ¬ ((RVM_MEMORY_STACK_START : Int) ≤ (vm.cpu.regs.rsp.toNat : Int) - 2 ∧
        (vm.cpu.regs.rsp.toNat : Int) - 1 ≤ RVM_MEMORY_STACK_END))
  /-- An overflow changes neither memory nor rsp, and leaves rip at the following instruction. -/
  overflowFrame : Overflows events → vm'.cpu.halt = true ∧ vm'.mem = vm.mem ∧
    vm'.cpu.regs.rsp = vm.cpu.regs.rsp ∧ vm'.cpu.regs.rip = vm.cpu.regs.rip + 2
  /-- RET with no pending call halts, reads nothing past its fetch and keeps rsp. -/
  retExits : vm.pendingOpcode = some .ret → d = 0 → vm'.cpu.halt = true ∧
    events.countP RvmEvent.isRead = 1 ∧ vm'.cpu.regs.rsp = vm.cpu.regs.rsp
  /-- RET with a pending call reads its return address and moves rsp. -/
  retPops : vm.pendingOpcode = some .ret → 0 < d →
    events.countP RvmEvent.isRead = 2 ∧ vm'.cpu.regs.rsp ≠ vm.cpu.regs.rsp
  /-- No other instruction changes rsp. -/
  others : vm.pendingOpcode ≠ some .call → vm.pendingOpcode ≠ some .ret →
    vm'.cpu.regs.rsp = vm.cpu.regs.rsp

section Discipline

variable {vm : RvmVm} {d : Nat} {instr : RvmInstr} {op : RvmOpcode} {cpu' : RvmCpu}
  {mem' : RvmMemory} {events : List RvmEvent}

/-- The trace of a cycle that executes an instruction, from the trace of the handler. -/
private abbrev fetchThen (vm : RvmVm) (events : List RvmEvent) : List RvmEvent :=
  .read vm.cpu.regs.rip :: .assign16 ((vm.cpu.regs.rip.toNat : Int) + 2) :: events

private theorem overflows_fetchThen : Overflows (fetchThen vm events) ↔ Overflows events := by
  simp only [Overflows, fetchThen, List.mem_cons, reduceCtorEq, false_or]

private theorem overflows_fault {msg : String} {value : Word} :
    Overflows [.fault msg value] ↔ msg = "CALL stack overflow" := by
  simp only [Overflows, List.mem_singleton, RvmEvent.fault.injEq]
  exact ⟨fun ⟨_, h, _⟩ => h.symm, fun h => ⟨value, h.symm, rfl⟩⟩

private theorem call_discipline (inv : CpuInv vm.cpu) (pending : vm.pending = some instr)
    (opcode : vm.pendingOpcode = some .call)
    (outcome : Outcome vm.fetched vm.mem instr .call (cpu', mem') events) :
    StackDiscipline vm d ⟨cpu', mem'⟩ (fetchThen vm events) := by
  have high := inv.rsp_high
  have target := (transferTarget vm.fetched instr).isLt
  have rsp : vm.fetched.regs.rsp = vm.cpu.regs.rsp := rfl
  have noRet : vm.pendingOpcode ≠ some .ret := by
    rw [opcode]
    decide
  have only : ∀ instr', vm.pending = some instr' → instr' = instr :=
    fun instr' h => (Option.some.inj (pending.symm.trans h)).symm
  rcases outcome.call with ⟨msg, fault, out, rfl⟩ | ⟨even, full, out, rfl⟩ | ⟨even, room, out, rfl⟩
  · -- a refused target is odd, and its text is not the overflow's
    cases out
    have odd := odd_of_targetFault fault
    have noOverflow :
        ¬ Overflows (fetchThen vm [.fault msg (transferTarget vm.fetched instr)]) := by
      rw [overflows_fetchThen, overflows_fault]
      rcases targetFault_text fault with rfl | rfl <;> decide
    refine ⟨fun _ _ _ h => by simp at h, fun instr' h _ => ?_, fun h => absurd h noOverflow,
      fun h => absurd h noRet, fun h => absurd h noRet, fun _ _ => rfl⟩
    rw [only instr' h]
    exact iff_of_false noOverflow fun h => odd h.1.2
  · cases out
    refine ⟨fun _ _ _ h => by simp at h, fun instr' h _ => ?_, fun _ => ⟨rfl, rfl, rfl, rfl⟩,
      fun h => absurd h noRet, fun h => absurd h noRet, fun _ _ => rfl⟩
    rw [only instr' h]
    refine iff_of_true (overflows_fetchThen.mpr (overflows_fault.mpr rfl)) ?_
    unfold RVM_MEMORY_SIZE RVM_CPU_INSTRUCTION_SIZE RVM_MEMORY_STACK_START RVM_MEMORY_STACK_END
    rw [rsp] at full
    omega
  · cases out
    rw [rsp] at room
    have slot : (vm.cpu.regs.rsp - 2).toNat = vm.cpu.regs.rsp.toNat - 2 := toNat_sub_two (by omega)
    have noOverflow : ¬ Overflows (fetchThen vm
        [.assign16 ((vm.fetched.regs.rsp.toNat : Int) - 2),
          .write (vm.fetched.regs.rsp - 2) vm.fetched.regs.rip]) := by
      simp [Overflows]
    refine ⟨fun _ offset data h => ?_, fun instr' h _ => ?_, fun h => absurd h noOverflow,
      fun h => absurd h noRet, fun h => absurd h noRet, fun h => absurd opcode h⟩
    · simp only [fetchThen, List.mem_cons, reduceCtorEq, List.not_mem_nil, or_false, false_or,
        RvmEvent.write.injEq, rsp] at h
      obtain ⟨rfl, _⟩ := h
      unfold RVM_MEMORY_STACK_START RVM_MEMORY_STACK_END
      omega
    · refine iff_of_false noOverflow ?_
      unfold RVM_MEMORY_STACK_START RVM_MEMORY_STACK_END
      omega

private theorem ret_discipline (inv : CpuInv vm.cpu)
    (depth : vm.cpu.regs.rsp.toNat + 2 * d = 0xFEFF) (opcode : vm.pendingOpcode = some .ret)
    (outcome : Outcome vm.fetched vm.mem instr .ret (cpu', mem') events) :
    StackDiscipline vm d ⟨cpu', mem'⟩ (fetchThen vm events) := by
  have high := inv.rsp_high
  have rsp : vm.fetched.regs.rsp = vm.cpu.regs.rsp := rfl
  have noCall : vm.pendingOpcode ≠ some .call := by
    rw [opcode]
    decide
  have moved : vm.cpu.regs.rsp.toNat ≤ 0xFEFE → vm.cpu.regs.rsp + 2 ≠ vm.cpu.regs.rsp := by
    intro h same
    have := congrArg BitVec.toNat same
    rw [toNat_add_two (by omega)] at this
    omega
  rcases outcome.ret with ⟨empty, out, rfl⟩ | ⟨nonempty, msg, fault, out, rfl⟩ |
    ⟨nonempty, even, out, rfl⟩
  · cases out
    rw [rsp] at empty
    have noOverflow : ¬ Overflows (fetchThen vm []) := by simp [Overflows]
    exact ⟨fun h => absurd h noCall, fun _ _ h => absurd h noCall, fun h => absurd h noOverflow,
      fun _ _ => ⟨rfl, rfl, rfl⟩, fun _ pos => absurd pos (by omega), fun _ h => absurd opcode h⟩
  · cases out
    rw [rsp] at nonempty
    have noOverflow : ¬ Overflows (fetchThen vm [.read vm.fetched.regs.rsp,
        .assign16 ((vm.fetched.regs.rsp.toNat : Int) + 2),
        .fault msg (vm.mem.word vm.fetched.regs.rsp.toNat)]) := by
      rintro ⟨value, h⟩
      simp only [fetchThen, List.mem_cons, reduceCtorEq, List.not_mem_nil, or_false, false_or,
        RvmEvent.fault.injEq] at h
      rcases targetFault_text fault with text | text <;> exact absurd (h.1.trans text) (by decide)
    exact ⟨fun h => absurd h noCall, fun _ _ h => absurd h noCall, fun h => absurd h noOverflow,
      fun _ zero => absurd zero (by omega), fun _ _ => ⟨rfl, moved nonempty⟩,
      fun _ h => absurd opcode h⟩
  · cases out
    rw [rsp] at nonempty
    have noOverflow : ¬ Overflows (fetchThen vm [.read vm.fetched.regs.rsp,
        .assign16 ((vm.fetched.regs.rsp.toNat : Int) + 2)]) := by
      simp [Overflows]
    exact ⟨fun h => absurd h noCall, fun _ _ h => absurd h noCall, fun h => absurd h noOverflow,
      fun _ zero => absurd zero (by omega), fun _ _ => ⟨rfl, moved nonempty⟩,
      fun _ h => absurd opcode h⟩

private theorem other_discipline (opcode : vm.pendingOpcode = some op) (call : op ≠ .call)
    (ret : op ≠ .ret) (outcome : Outcome vm.fetched vm.mem instr op (cpu', mem') events) :
    StackDiscipline vm d ⟨cpu', mem'⟩ (fetchThen vm events) := by
  have noCall : vm.pendingOpcode ≠ some .call := by
    rw [opcode]
    exact fun h => call (Option.some.inj h)
  have noRet : vm.pendingOpcode ≠ some .ret := by
    rw [opcode]
    exact fun h => ret (Option.some.inj h)
  obtain ⟨rsp, quiet⟩ := outcome.other call ret
  have noOverflow : ¬ Overflows (fetchThen vm events) := by
    rw [overflows_fetchThen]
    exact fun ⟨value, h⟩ => quiet value h
  exact ⟨fun h => absurd h noCall, fun _ _ h => absurd h noCall, fun h => absurd h noOverflow,
    fun h => absurd h noRet, fun h => absurd h noRet, fun _ _ => rsp⟩

/-- The stack discipline of every cycle, from the invariant and the depth. -/
theorem CycleCase.discipline {vm' : RvmVm} {ret : Int} (inv : CpuInv vm.cpu)
    (depth : vm.cpu.regs.rsp.toNat + 2 * d = 0xFEFF) (h : CycleCase vm ret vm' events) :
    StackDiscipline vm d vm' events := by
  have idle : ∀ {events}, vm.pendingOpcode = none → ¬ Overflows events →
      StackDiscipline vm d vm events := by
    intro events none noOverflow
    have noOp : ∀ op, vm.pendingOpcode ≠ some op := fun op h => by
      rw [none] at h
      cases h
    exact ⟨fun h => absurd h (noOp _), fun _ _ h => absurd h (noOp _),
      fun h => absurd h noOverflow, fun h => absurd h (noOp _), fun h => absurd h (noOp _),
      fun _ _ => rfl⟩
  cases h with
  | halted halt => exact idle (RvmVm.pendingOpcode_of_halt halt) (by simp [Overflows])
  | ripOutOfBounds _ out =>
    refine idle (RvmVm.pendingOpcode_of_out out) ?_
    rw [overflows_fault]
    decide
  | executed pending opcode outcome =>
    rename_i instr op cpu' mem' events
    by_cases call : op = .call
    · subst call
      exact call_discipline inv pending opcode outcome
    · by_cases ret : op = .ret
      · subst ret
        exact ret_discipline inv depth opcode outcome
      · exact other_discipline opcode call ret outcome

end Discipline

/-! ## Accounting -/

namespace RvmVm

/-- The CALLs that completed in the first `k` cycles. -/
def calls (vm : RvmVm) (k : Nat) : Nat := Nat.count (fun j => (vm.after j).completesCall = true) k

/-- The RETs that popped in the first `k` cycles, whether or not they then faulted. -/
def pops (vm : RvmVm) (k : Nat) : Nat := Nat.count (fun j => (vm.after j).popsRet = true) k

end RvmVm

/-- One cycle moves rsp by two for each call and each pop. -/
theorem StackCase.rsp {vm vm' : RvmVm} {events : List RvmEvent} {completes pops : Bool}
    (inv : CpuInv vm.cpu) (h : StackCase vm events completes pops vm') :
    vm'.cpu.regs.rsp.toNat + 2 * (if completes = true then 1 else 0) =
      vm.cpu.regs.rsp.toNat + 2 * (if pops = true then 1 else 0) := by
  have high := inv.rsp_high
  cases h with
  | push room rsp _ =>
    rw [rsp, toNat_sub_two (by omega), if_pos rfl, if_neg Bool.false_ne_true]
    omega
  | pop nonempty rsp _ _ =>
    rw [rsp, toNat_add_two (by omega), if_pos rfl, if_neg Bool.false_ne_true]
  | store _ _ _ rsp _ | keep rsp _ => rw [rsp]

/-- rsp counts the calls that are pending: those completed and not yet popped. -/
theorem Loads.account {file : RvmFile} {vm : RvmVm} (loaded : Loads file vm) (k : Nat) :
    (vm.after k).cpu.regs.rsp.toNat + 2 * vm.calls k = 0xFEFF + 2 * vm.pops k := by
  induction k with
  | zero =>
    rw [RvmVm.after_zero, loaded.cpu]
    rfl
  | succ k ih =>
    have moved := (RvmVm.stack_cases (vm.after k)).rsp (loaded.inv k)
    rw [RvmVm.after_succ]
    simp only [RvmVm.calls, RvmVm.pops, Nat.count_succ] at ih ⊢
    omega

/-- **Stack accounting.** In every state a loaded image reaches, whatever the program did to its
own stack, the calls exceed the pops by some `d` of at most 1919, rsp is 2 * `d` below its initial
value, and the next cycle keeps the stack discipline at depth `d`. -/
theorem stack_account {file : RvmFile} {vm : RvmVm} (loaded : Loads file vm) (k : Nat) :
    ∃ d, vm.calls k = vm.pops k + d ∧ d ≤ 1919 ∧
      (vm.after k).cpu.regs.rsp.toNat = 0xFEFF - 2 * d ∧
      StackDiscipline (vm.after k) d (vm.after (k + 1)) (vm.after k).cycle.events := by
  have inv := loaded.inv k
  have account := loaded.account k
  have := inv.rsp_low
  have := inv.rsp_high
  refine ⟨vm.calls k - vm.pops k, by omega, by omega, by omega, ?_⟩
  rw [RvmVm.after_succ]
  exact (RvmVm.cycle_cases _).discipline inv (by omega)

/-- CALL over one instruction, to a RET. -/
def callFile : RvmFile := { content := [0x02, 0xE0, 0x00, 0xF0, 0x00, 0xF0] }

def callVm : RvmVm := { freshVm with mem := freshVm.mem.copy callFile.content }

theorem stack_account_call : ∃ d, callVm.calls 1 = callVm.pops 1 + d ∧ d ≤ 1919 ∧
    (callVm.after 1).cpu.regs.rsp.toNat = 0xFEFF - 2 * d ∧
    StackDiscipline (callVm.after 1) d (callVm.after 2) (callVm.after 1).cycle.events :=
  stack_account (show Loads callFile callVm from rfl) 1

/-! ## Pending calls -/

/-- A pending call: where it returns to, and rsp before it. -/
structure Frame where
  returnAddr : Word
  rspBefore : Word

namespace RvmVm

/-- The ghost list across one cycle: a completed CALL adds its frame, a popping RET drops one. -/
def ghostStep (vm : RvmVm) (frames : List Frame) : List Frame :=
  if vm.completesCall = true then ⟨vm.cpu.regs.rip + 2, vm.cpu.regs.rsp⟩ :: frames
  else if vm.popsRet = true then frames.tail
  else frames

/-- The calls pending after `k` cycles, innermost first. -/
def frames (vm : RvmVm) (k : Nat) : List Frame := history step ghostStep vm [] k

/-- The words at rsp, rsp + 2 and so on, up to the one at 0xFEFD. -/
def stackWords (vm : RvmVm) : List Word :=
  (List.range ((RVM_MEMORY_STACK_END - vm.cpu.regs.rsp.toNat) / 2)).map fun i =>
    vm.mem.word (vm.cpu.regs.rsp.toNat + 2 * i)

/-- If the next cycle executes a STORE, it writes no byte of the live stack. -/
def StoreSpares (vm : RvmVm) : Prop :=
  vm.pendingOpcode = some .store → ∀ offset data, .write offset data ∈ vm.cycle.events →
    ∀ a, a = offset.toNat ∨ a = offset.toNat + 1 →
      ¬ (vm.cpu.regs.rsp.toNat ≤ a ∧ a < RVM_MEMORY_STACK_END)

end RvmVm

/-- The memory from `sp` up to the end of the stack holds the given frames, each returning to an
even address. -/
def Holds (mem : RvmMemory) (sp : Nat) : List Frame → Prop
  | [] => sp = RVM_MEMORY_STACK_END
  | f :: rest => mem.word sp = f.returnAddr ∧ f.rspBefore.toNat = sp + 2 ∧
      f.returnAddr.toNat % 2 = 0 ∧ Holds mem (sp + 2) rest

theorem Holds.depth {mem : RvmMemory} {sp : Nat} {frames : List Frame} (h : Holds mem sp frames) :
    sp + 2 * frames.length = RVM_MEMORY_STACK_END := by
  induction frames generalizing sp with
  | nil => exact h
  | cons f rest ih =>
    have := ih h.2.2.2
    rw [List.length_cons]
    omega

theorem Holds.words {mem : RvmMemory} {sp : Nat} {frames : List Frame} (h : Holds mem sp frames) :
    (List.range frames.length).map (fun i => mem.word (sp + 2 * i)) =
      frames.map Frame.returnAddr := by
  induction frames generalizing sp with
  | nil => rfl
  | cons f rest ih =>
    obtain ⟨top, _, _, below⟩ := h
    have shifted : (fun i => mem.word (sp + 2 * i)) ∘ Nat.succ =
        fun i => mem.word (sp + 2 + 2 * i) := by
      refine funext fun i => congrArg mem.word ?_
      show sp + 2 * (i + 1) = sp + 2 + 2 * i
      omega
    rw [List.length_cons, List.range_succ_eq_map, List.map_cons, List.map_map, shifted, ih below,
      List.map_cons, Nat.mul_zero, Nat.add_zero, top]

/-- What the stack holds depends on its live bytes alone. -/
theorem Holds.congr {mem mem' : RvmMemory} {sp : Nat} {frames : List Frame}
    (h : Holds mem sp frames)
    (same : ∀ a, sp ≤ a → a < RVM_MEMORY_STACK_END → mem'.byte a = mem.byte a) :
    Holds mem' sp frames := by
  induction frames generalizing sp with
  | nil => exact h
  | cons f rest ih =>
    have depth := h.depth
    rw [List.length_cons] at depth
    obtain ⟨top, before, even, below⟩ := h
    refine ⟨?_, before, even, ih below fun a ha => same a (by omega)⟩
    rw [← top]
    exact RvmMemory.word_congr (same sp (by omega) (by omega)) (same (sp + 1) (by omega) (by omega))

/-- One cycle takes the frames it holds to the frames of the next state. -/
theorem StackCase.holds {vm vm' : RvmVm} {completes pops : Bool} {frames : List Frame}
    (inv : CpuInv vm.cpu) (spares : vm.StoreSpares)
    (h : StackCase vm vm.cycle.events completes pops vm')
    (holds : Holds vm.mem vm.cpu.regs.rsp.toNat frames) :
    Holds vm'.mem vm'.cpu.regs.rsp.toNat
      (if completes = true then ⟨vm.cpu.regs.rip + 2, vm.cpu.regs.rsp⟩ :: frames
        else if pops = true then frames.tail else frames) := by
  have high := inv.rsp_high
  have even := inv.rip_even
  cases h with
  | push room rsp mem =>
    rw [if_pos rfl, rsp, toNat_sub_two (by omega), mem]
    have back : vm.cpu.regs.rsp.toNat - 2 + 2 = vm.cpu.regs.rsp.toNat := by omega
    refine ⟨RvmMemory.word_setWord_self _ _ (by omega), back.symm, ?_, ?_⟩
    · rw [BitVec.toNat_add]
      show (vm.cpu.regs.rip.toNat + 2) % 2 ^ 16 % 2 = 0
      omega
    · rw [back]
      -- the push writes the two bytes below the live ones
      exact holds.congr fun a ha _ => RvmMemory.byte_setWord_of_ne _ _ (by omega) (by omega)
        (by omega)
  | pop nonempty rsp mem _ =>
    rw [if_neg Bool.false_ne_true, if_pos rfl, rsp, toNat_add_two (by omega), mem]
    cases frames with
    | nil =>
      have : vm.cpu.regs.rsp.toNat = 0xFEFF := holds
      omega
    | cons f rest => exact holds.2.2.2
  | store opcode write unaligned rsp mem =>
    rename_i offset data
    rw [if_neg Bool.false_ne_true, if_neg Bool.false_ne_true, rsp, mem]
    have outside := spares opcode offset data write
    have inside := offset.isLt
    exact holds.congr fun a low up => RvmMemory.byte_setWord_of_ne _ _ (by omega)
      (fun same => outside a (.inl same) ⟨low, up⟩) fun same => outside a (.inr same) ⟨low, up⟩
  | keep rsp mem => rwa [if_neg Bool.false_ne_true, if_neg Bool.false_ne_true, rsp, mem]

/-- A RET that finds a frame pops it and lands behind the CALL that pushed it. -/
theorem Holds.ret {vm : RvmVm} {f : Frame} {rest : List Frame} (inv : CpuInv vm.cpu)
    (holds : Holds vm.mem vm.cpu.regs.rsp.toNat (f :: rest))
    (opcode : vm.pendingOpcode = some .ret) :
    vm.cycle.val.2.cpu.halt = false ∧ vm.cycle.val.2.cpu.regs.rip = f.returnAddr ∧
      vm.cycle.val.2.cpu.regs.rsp = f.rspBefore := by
  have discipline := (RvmVm.cycle_cases vm).discipline inv holds.depth
  have pops : vm.popsRet = true := by
    simp only [RvmVm.popsRet, opcode, (discipline.retPops opcode (Nat.succ_pos _)).1,
      decide_true, Bool.and_self]
  have stack := RvmVm.stack_cases vm
  rw [pops] at stack
  obtain ⟨top, before, even, _⟩ := holds
  generalize vm.completesCall = completes at stack
  cases stack with
  | pop nonempty rsp _ lands =>
    rw [top] at lands
    obtain ⟨running, rip⟩ := lands even
    refine ⟨running, rip, BitVec.eq_of_toNat_eq ?_⟩
    rw [rsp, toNat_add_two (by omega), before]

/-- In a run whose STOREs spare the live stack, the stack holds the pending calls. -/
theorem Loads.holds {file : RvmFile} {vm : RvmVm} (loaded : Loads file vm) (k : Nat)
    (spares : ∀ j < k, (vm.after j).StoreSpares) :
    Holds (vm.after k).mem (vm.after k).cpu.regs.rsp.toNat (vm.frames k) := by
  have both : CpuInv (vm.after k).cpu ∧
      Holds (vm.after k).mem (vm.after k).cpu.regs.rsp.toNat (vm.frames k) := by
    refine run_history_invariant RvmVm.ghostStep (C := RvmVm.StoreSpares)
      (I := fun s frames => CpuInv s.cpu ∧ Holds s.mem s.cpu.regs.rsp.toNat frames)
      ⟨loaded.inv 0, ?_⟩ (fun s frames inv spares => ?_) k spares
    · rw [RvmVm.after_zero, loaded.cpu]
      rfl
    · exact ⟨(RvmVm.cycle_cases s).inv inv.1, (RvmVm.stack_cases s).holds inv.1 spares inv.2⟩
  exact both.2

/-- **Pending calls.** After any run of a loaded image whose STOREs spare the live stack, the words
of the stack are the return addresses of the pending calls, innermost first. A RET with a pending
call then does not fault: it continues behind the CALL, with rsp as it was before it. -/
theorem pending_calls {file : RvmFile} {vm : RvmVm} (loaded : Loads file vm) (k : Nat)
    (spares : ∀ j < k, (vm.after j).StoreSpares) :
    (vm.after k).stackWords = (vm.frames k).map Frame.returnAddr ∧
    ∀ f rest, vm.frames k = f :: rest → (vm.after k).pendingOpcode = some .ret →
      (vm.after (k + 1)).cpu.halt = false ∧
      (vm.after (k + 1)).cpu.regs.rip = f.returnAddr ∧
      (vm.after (k + 1)).cpu.regs.rsp = f.rspBefore := by
  have holds := loaded.holds k spares
  refine ⟨?_, fun f rest pending opcode => ?_⟩
  · have depth := holds.depth
    have length : (RVM_MEMORY_STACK_END - (vm.after k).cpu.regs.rsp.toNat) / 2 =
        (vm.frames k).length := by omega
    rw [RvmVm.stackWords, length]
    exact holds.words
  · rw [RvmVm.after_succ]
    rw [pending] at holds
    exact holds.ret (loaded.inv k) opcode

theorem pending_calls_call : (callVm.after 1).stackWords = (callVm.frames 1).map Frame.returnAddr ∧
    ∀ f rest, callVm.frames 1 = f :: rest → (callVm.after 1).pendingOpcode = some .ret →
      (callVm.after 2).cpu.halt = false ∧
      (callVm.after 2).cpu.regs.rip = f.returnAddr ∧
      (callVm.after 2).cpu.regs.rsp = f.rspBefore :=
  pending_calls (show Loads callFile callVm from rfl) 1 fun j hj => by
    obtain rfl : j = 0 := by omega
    exact fun store => absurd store (by decide)

end RocketVm
