import RocketVm.Laws.Safety
import RocketVm.Lib.Locality

/-!
# What a run depends on

Two machines with the same CPU run alike, whatever else their memories hold, as long as these agree
on every byte that the run reads before it writes it.
-/

namespace RocketVm

open Lib

/-- The bytes of a 16-bit access. -/
def wordAt (offset : Word) : Set Nat := {offset.toNat, offset.toNat + 1}

def RvmEvent.reads : RvmEvent → Set Nat
  | .read offset => wordAt offset
  | _ => ∅

def RvmEvent.writes : RvmEvent → Set Nat
  | .write offset _ => wordAt offset
  | _ => ∅

/-- Two memories agree on a set of bytes. -/
def RvmMemory.SameOn (mem : RvmMemory) (X : Set Nat) (mem' : RvmMemory) : Prop :=
  ∀ i ∈ X, mem.byte i = mem'.byte i

/-- One computation on a VM follows another. -/
abbrev RunsLike {α : Type} (X : Set Nat) (agree : Set Nat → α → α → Prop)
    (x y : Traced RvmEvent α) : Prop := Follows RvmEvent.reads RvmEvent.writes X agree x y

/-- The same CPU, and memories that agree on a set. -/
def SameState (X : Set Nat) (out out' : RvmCpu × RvmMemory) : Prop :=
  out.1 = out'.1 ∧ out.2.SameOn X out'.2

section Accesses

variable {X : Set Nat} {mem mem' : RvmMemory}

theorem RvmMemory.SameOn.of_empty (same : mem.SameOn X mem') {es : List RvmEvent}
    (quiet : ∀ e ∈ es, e.writes = ∅) : mem.SameOn (X ∪ written RvmEvent.writes es) mem' := by
  rintro i (inside | ⟨e, member, write⟩)
  · exact same i inside
  · rw [quiet e member] at write
    exact write.elim

theorem RvmMemory.SameOn.of_event (same : mem.SameOn X mem') {e : RvmEvent}
    (quiet : e.writes = ∅) : mem.SameOn (X ∪ written RvmEvent.writes [e]) mem' :=
  same.of_empty fun _ member => List.mem_singleton.mp member ▸ quiet

theorem runsLike_read (offset : Word) (same : mem.SameOn X mem') :
    RunsLike X (fun _ w w' => w = w') (rvmMemoryReadUint16 mem offset)
      (rvmMemoryReadUint16 mem' offset) := by
  intro enough
  have low : offset.toNat ∈ X := enough (.inl (.inl rfl))
  have high : offset.toNat + 1 ∈ X := enough (.inl (.inr rfl))
  exact ⟨rfl, RvmMemory.word_congr (same _ low) (same _ high)⟩

theorem runsLike_write {offset : Word} (inside : offset.toNat + 1 < 0x10000) (data : Word)
    (same : mem.SameOn X mem') :
    RunsLike X (fun Y m m' => m.SameOn Y m') (rvmMemoryWriteUint16 mem offset data)
      (rvmMemoryWriteUint16 mem' offset data) := by
  refine fun _ => ⟨rfl, fun i member => ?_⟩
  show (mem.data.setWord offset.toNat data).get i = (mem'.data.setWord offset.toNat data).get i
  rw [ByteStore.get_setWord _ _ _ inside, ByteStore.get_setWord _ _ _ inside]
  split
  · rfl
  · split
    · rfl
    · next low high =>
      rcases member with before | ⟨e, listed, write⟩
      · exact same i before
      · rw [rvmMemoryWriteUint16_events, List.mem_singleton] at listed
        subst listed
        rcases write with at_ | at_
        · exact absurd at_ low
        · exact absurd at_ high

end Accesses

/-! ## Handlers -/

/-- The opcodes whose handlers access memory. -/
def RvmOpcode.accesses : RvmOpcode → Bool
  | .load | .store | .call | .ret => true
  | _ => false

section Handlers

variable {X : Set Nat} {cpu : RvmCpu} {mem mem' : RvmMemory} {instr : RvmInstr} {op : RvmOpcode}

/-- Any other handler passes the memory on. -/
theorem handler_passes (passes : op.accesses = false) (cpu : RvmCpu) (mem mem' : RvmMemory)
    (instr : RvmInstr) :
    op.handler cpu mem' instr = ⟨((op.handler cpu mem instr).val.1, mem'),
      (op.handler cpu mem instr).events⟩ ∧ (op.handler cpu mem instr).val.2 = mem := by
  have jmp : rvmCpuExecJmp cpu mem' instr = ⟨((rvmCpuExecJmp cpu mem instr).val.1, mem'),
      (rvmCpuExecJmp cpu mem instr).events⟩ ∧ (rvmCpuExecJmp cpu mem instr).val.2 = mem := by
    unfold rvmCpuExecJmp
    dsimp only
    split <;> exact ⟨rfl, rfl⟩
  cases op with
  | load | store | call | ret => cases passes
  | jmp => exact jmp
  | jz =>
    simp only [RvmOpcode.handler, rvmCpuExecJz]
    split
    · exact jmp
    · exact ⟨rfl, rfl⟩
  | jnz =>
    simp only [RvmOpcode.handler, rvmCpuExecJnz]
    split
    · exact jmp
    · exact ⟨rfl, rfl⟩
  | _ => exact ⟨rfl, rfl⟩

theorem RvmEvent.Quiet.writes {e : RvmEvent} (quiet : e.Quiet) : e.writes = ∅ := by
  cases e <;> first | rfl | cases quiet

/-- Only STORE and CALL write. -/
theorem Outcome.writes {out : RvmCpu × RvmMemory} {events : List RvmEvent}
    (outcome : Outcome cpu mem instr op out events) (passes : op.accesses = false) :
    ∀ e ∈ events, e.writes = ∅ := by
  have single : ∀ {e : RvmEvent}, e.writes = ∅ → ∀ e' ∈ [e], e'.writes = ∅ :=
    fun none _ member => List.mem_singleton.mp member ▸ none
  cases outcome with
  | computed _ _ _ quiet | compared _ quiet => exact fun e member => (quiet e member).writes
  | dividedByZero | jumpFault => exact single rfl
  | passed | jumped => exact fun e member => absurd member List.not_mem_nil
  | loadFault | loaded | storeFault | stored | callFault | callOverflow | called | exited
  | returnFault | returned => cases passes

/-- A handler that reports a fault. -/
theorem runsLike_fault (same : mem.SameOn X mem') (msg : String) (value : Word) :
    RunsLike X SameState (do let cpu ← rvmCpuFault cpu msg value; return (cpu, mem))
      (do let cpu ← rvmCpuFault cpu msg value; return (cpu, mem')) := by
  exact Follows.seq (Follows.pure ⟨rfl, same.of_event rfl⟩)

theorem load_runsLike (same : mem.SameOn X mem') :
    RunsLike X SameState (rvmCpuExecLoad cpu mem instr) (rvmCpuExecLoad cpu mem' instr) := by
  unfold rvmCpuExecLoad
  dsimp only
  split
  · exact runsLike_fault same _ _
  · refine (runsLike_read _ same).bind fun value => ?_
    rw [value]
    exact Follows.pure ⟨rfl, same.of_event rfl⟩

theorem store_runsLike (same : mem.SameOn X mem') :
    RunsLike X SameState (rvmCpuExecStore cpu mem instr) (rvmCpuExecStore cpu mem' instr) := by
  unfold rvmCpuExecStore
  dsimp only
  split
  · exact runsLike_fault same _ _
  · next inside =>
    have even := accessFault_eq_none.mp inside
    have bound := (instr.source cpu).isLt
    exact (runsLike_write (by omega) _ same).bind fun written => Follows.pure ⟨rfl, written⟩

theorem call_runsLike (same : mem.SameOn X mem') :
    RunsLike X SameState (rvmCpuExecCall cpu mem instr) (rvmCpuExecCall cpu mem' instr) := by
  unfold rvmCpuExecCall
  dsimp only
  split
  · exact runsLike_fault same _ _
  · split
    · exact runsLike_fault same _ _
    · next room =>
      have low : 0xF002 ≤ cpu.regs.rsp.toNat := Nat.not_lt.mp room
      have slot : (assign16 ((cpu.regs.rsp.toNat : Int) - 2)).val.toNat + 1 < 0x10000 := by
        show (BitVec.ofInt 16 ((cpu.regs.rsp.toNat : Int) - 2)).toNat + 1 < 0x10000
        rw [ofInt_sub_two, toNat_sub_two (by omega)]
        have := cpu.regs.rsp.isLt
        omega
      exact Follows.seq ((runsLike_write slot _ (same.of_event rfl)).bind
        fun written => Follows.pure ⟨rfl, written⟩)

theorem ret_runsLike (same : mem.SameOn X mem') :
    RunsLike X SameState (rvmCpuExecRet cpu mem instr) (rvmCpuExecRet cpu mem' instr) := by
  unfold rvmCpuExecRet
  split
  · exact Follows.pure ⟨rfl, same⟩
  · refine (runsLike_read _ same).bind fun value => ?_
    rw [value]
    -- neither the read nor the assignment of rsp writes a byte
    have read : mem.SameOn (X ∪ written RvmEvent.writes [.read cpu.regs.rsp]) mem' :=
      same.of_event rfl
    have moved := read.of_event (e := .assign16 ((cpu.regs.rsp.toNat : Int) + 2)) rfl
    refine Follows.seq ?_
    dsimp only
    split
    · exact runsLike_fault moved _ _
    · exact Follows.pure ⟨rfl, moved⟩

/-- **One handler** depends on the memory only at the bytes it reads. -/
theorem handler_runsLike (op : RvmOpcode) (same : mem.SameOn X mem') :
    RunsLike X SameState (op.handler cpu mem instr) (op.handler cpu mem' instr) := by
  cases passes : op.accesses with
  | false =>
    obtain ⟨second, kept⟩ := handler_passes passes cpu mem mem' instr
    rw [second]
    refine fun _ => ⟨rfl, rfl, ?_⟩
    rw [kept]
    exact same.of_empty ((handler_outcome cpu mem instr op).writes passes)
  | true =>
    cases op with
    | load => exact load_runsLike same
    | store => exact store_runsLike same
    | call => exact call_runsLike same
    | ret => exact @ret_runsLike X cpu mem mem' instr same
    | _ => cases passes

end Handlers

/-! ## Cycles and runs -/

/-- The same return code and the same CPU, and memories that agree on a set. -/
def SameReturn (X : Set Nat) (out out' : Int × RvmVm) : Prop :=
  out.1 = out'.1 ∧ out.2.cpu = out'.2.cpu ∧ out.2.mem.SameOn X out'.2.mem

/-- The same for a return code beside a CPU and a memory. -/
def SameExecute (X : Set Nat) (out out' : Int × RvmCpu × RvmMemory) : Prop :=
  out.1 = out'.1 ∧ SameState X out.2 out'.2

section Runs

variable {X : Set Nat} {vm vm' : RvmVm}

theorem cycle_runsLike (cpu : vm.cpu = vm'.cpu) (same : vm.mem.SameOn X vm'.mem) :
    RunsLike X SameReturn vm.cycle vm'.cycle := by
  obtain ⟨c, mem⟩ := vm
  obtain ⟨c', mem'⟩ := vm'
  cases cpu
  refine Follows.bind (R := SameExecute) ?_
    fun ⟨code, cpu, mem⟩ => Follows.pure ⟨code, cpu, mem⟩
  unfold rvmCpuCycle
  split
  · exact Follows.pure ⟨rfl, rfl, same⟩
  · dsimp only
    split
    · exact Follows.seq (Follows.pure ⟨rfl, rfl, same.of_event rfl⟩)
    · refine (runsLike_read _ same).bind fun value => ?_
      rw [value]
      have read := same.of_event (e := .read c.regs.rip) rfl
      have moved := read.of_event (e := .assign16 ((c.regs.rip.toNat : Int) + 2)) rfl
      refine Follows.seq ?_
      obtain ⟨op, code⟩ := rvmDecode_opcode_code (rvmMemoryReadUint16 mem' c.regs.rip).val
      rw [rvmCpuExecute_eq _ _ code, rvmCpuExecute_eq _ _ code]
      refine Follows.bind (R := SameExecute) (fun enough => ?_)
        fun ⟨_, state⟩ => Follows.pure ⟨rfl, state⟩
      obtain ⟨events, state⟩ := handler_runsLike op moved enough
      exact ⟨events, rfl, state⟩

/-- **The loop** depends on the memory only at the bytes it reads before it writes them. -/
theorem rvmVmRun_runsLike (fuel : Nat) (cpu : vm.cpu = vm'.cpu)
    (same : vm.mem.SameOn X vm'.mem) :
    RunsLike X (fun Y => Option.Rel (SameReturn Y)) (rvmVmRun fuel vm) (rvmVmRun fuel vm') := by
  induction fuel generalizing X vm vm' with
  | zero => exact Follows.pure .none
  | succ fuel ih =>
    unfold rvmVmRun
    rw [← cpu]
    split
    · exact Follows.pure (.some ⟨rfl, cpu, same⟩)
    · refine (cycle_runsLike cpu same).bind fun ⟨code, after, rest⟩ => ?_
      dsimp only
      rw [← code]
      split
      · exact Follows.seq (Follows.pure (.some ⟨rfl, after, rest.of_event rfl⟩))
      · exact ih after rest

end Runs

/-- **What a run depends on.** Two machines with the same CPU whose memories agree on every byte
that the run of the first reads before writing it run alike: the same events, the same return code
and CPU, and memories that agree where they did before and where the run has written. -/
theorem run_depends_on_reads {vm vm' : RvmVm} {fuel : Nat} (cpu : vm.cpu = vm'.cpu)
    (agree : ∀ i ∈ needs RvmEvent.reads RvmEvent.writes (rvmVmRun fuel vm).events,
      vm.mem.byte i = vm'.mem.byte i) :
    (rvmVmRun fuel vm').events = (rvmVmRun fuel vm).events ∧
      Option.Rel (fun out out' => out.1 = out'.1 ∧ out.2.cpu = out'.2.cpu ∧
          ∀ i, vm.mem.byte i = vm'.mem.byte i ∨
              i ∈ written RvmEvent.writes (rvmVmRun fuel vm).events →
            out.2.mem.byte i = out'.2.mem.byte i)
        (rvmVmRun fuel vm).val (rvmVmRun fuel vm').val :=
  rvmVmRun_runsLike (X := {i | vm.mem.byte i = vm'.mem.byte i}) fuel cpu (fun _ same => same) agree

/-- LOAD rv0, [4], a RET, the word that is loaded, and some bytes behind it. -/
def loadVm (rest : List Byte) : RvmVm :=
  { freshVm with mem := freshVm.mem.copy ([0x04, 0x10, 0x00, 0xF0, 0x2A, 0x00] ++ rest) }

theorem run_depends_on_reads_load :
    (rvmVmRun 3 (loadVm [0x55])).events = (rvmVmRun 3 (loadVm [])).events ∧
      Option.Rel (fun out out' => out.1 = out'.1 ∧ out.2.cpu = out'.2.cpu ∧
          ∀ i, (loadVm []).mem.byte i = (loadVm [0x55]).mem.byte i ∨
              i ∈ written RvmEvent.writes (rvmVmRun 3 (loadVm [])).events →
            out.2.mem.byte i = out'.2.mem.byte i)
        (rvmVmRun 3 (loadVm [])).val (rvmVmRun 3 (loadVm [0x55])).val := by
  have events : (rvmVmRun 3 (loadVm [])).events =
      [.read 0, .assign16 2, .read 4, .read 2, .assign16 4] := by decide +kernel
  refine run_depends_on_reads rfl fun i needed => ?_
  rw [events] at needed
  -- the byte that differs is behind all that is read
  have inside : i < 6 := by
    have words : i ∈ wordAt 0 ∨ i ∈ wordAt 4 ∨ i ∈ wordAt 2 := by
      simpa only [needs, RvmEvent.reads, RvmEvent.writes, Set.mem_union, Set.mem_sdiff,
        Set.mem_empty_iff_false, not_false_eq_true, and_true, and_false, false_or, or_false]
        using needed
    rcases words with (rfl | rfl) | (rfl | rfl) | (rfl | rfl) <;> decide
  interval_cases i <;> decide +kernel

end RocketVm
