import RocketVm.Laws.Frame
import RocketVm.Laws.Stack

/-!
# Whole runs

`rvm_vm_run` and the machine it drives. A run ends after the first `k` cycles when each of them
fetched and the next one does not (`EndsAfter`), and then `rvm_vm_run` returns the state after `k`
cycles, with 0 if the CPU has halted and -1 if not (`rvmVmRun_eq_some`). The return code tells
success from failure exactly in the runs without a failing instruction (`run_result_iff`): a failing
instruction halts the CPU, and a halted CPU is a success to `rvm_vm_run`.
-/

namespace RocketVm

open Lib

/-! ## The end of a run -/

namespace RvmVm

/-- The first `k` cycles fetch, and the next one does not. -/
def EndsAfter (vm : RvmVm) (k : Nat) : Prop :=
  (∀ j < k, (vm.after j).pending.isSome = true) ∧ (vm.after k).pending = none

/-- The first cycle of a run, then the others. -/
theorem after_cycle (vm : RvmVm) (k : Nat) : vm.after (k + 1) = vm.cycle.val.2.after k :=
  Function.iterate_succ_apply _ k vm

theorem endsAfter_zero {vm : RvmVm} : vm.EndsAfter 0 ↔ vm.pending = none :=
  and_iff_right fun _ h => absurd h (Nat.not_lt_zero _)

theorem endsAfter_succ {vm : RvmVm} {k : Nat} :
    vm.EndsAfter (k + 1) ↔ vm.pending.isSome = true ∧ vm.cycle.val.2.EndsAfter k := by
  unfold EndsAfter
  rw [after_cycle]
  constructor
  · rintro ⟨fetches, stops⟩
    refine ⟨fetches 0 (Nat.succ_pos k), fun j hj => ?_, stops⟩
    exact after_cycle vm j ▸ fetches (j + 1) (Nat.succ_lt_succ hj)
  · rintro ⟨first, fetches, stops⟩
    refine ⟨fun j hj => ?_, stops⟩
    cases j with
    | zero => exact first
    | succ j => exact after_cycle vm j ▸ fetches j (Nat.lt_of_succ_lt_succ hj)

/-- A cycle that does not fetch leaves the machine as it is. -/
theorem cycle_of_not_pending {vm : RvmVm} (h : vm.pending = none) : vm.cycle.val.2 = vm := by
  have cases_ := vm.cycle_cases
  generalize vm.cycle.val.1 = ret, vm.cycle.val.2 = vm', vm.cycle.events = events at cases_
  cases cases_ with
  | halted _ | ripOutOfBounds _ _ => rfl
  | executed pending _ _ => cases h.symm.trans pending

/-- Every cycle that fetches belongs to the run. -/
theorem EndsAfter.lt_of_pending {vm : RvmVm} {k j : Nat} (h : vm.EndsAfter k)
    (pending : (vm.after j).pending.isSome = true) : j < k := by
  by_contra past
  have stays : ∀ i, vm.after (k + i) = vm.after k := by
    intro i
    induction i with
    | zero => rfl
    | succ i ih =>
      rw [← Nat.add_assoc, after_succ, ih]
      exact cycle_of_not_pending h.2
  have same := stays (j - k)
  rw [Nat.add_sub_cancel' (Nat.not_lt.mp past)] at same
  rw [same, h.2] at pending
  cases pending

/-- A cycle that halts is the last one of the run. -/
theorem EndsAfter.last {vm : RvmVm} {k j : Nat} (h : vm.EndsAfter k)
    (pending : (vm.after j).pending.isSome = true) (halts : (vm.after (j + 1)).cpu.halt = true) :
    j + 1 = k := by
  have before := h.lt_of_pending pending
  by_contra other
  obtain ⟨instr, fetched⟩ := Option.isSome_iff_exists.mp (h.1 (j + 1) (by omega))
  exact Bool.false_ne_true ((pending_eq_some.mp fetched).1.symm.trans halts)

end RvmVm

/-! ## The return code -/

/-- An iteration of the loop that fetches. -/
theorem rvmVmRun_of_pending (fuel : Nat) {vm : RvmVm} (h : vm.pending.isSome = true) :
    rvmVmRun (fuel + 1) vm = ⟨(rvmVmRun fuel vm.cycle.val.2).val,
      vm.cycle.events ++ (rvmVmRun fuel vm.cycle.val.2).events⟩ := by
  obtain ⟨instr, pending⟩ := Option.isSome_iff_exists.mp h
  have running := (RvmVm.pending_eq_some.mp pending).1
  have cases_ := vm.cycle_cases
  have result : ¬ vm.cycle.val.1 = -1 := by
    generalize vm.cycle.val.1 = ret, vm.cycle.val.2 = vm', vm.cycle.events = events at cases_
    cases cases_ with
    | halted _ | executed _ _ _ => decide
    | ripOutOfBounds _ out =>
      have := (RvmVm.pending_eq_some.mp pending).2.1
      omega
  simp only [rvmVmRun, running, Bool.false_eq_true, ↓reduceIte, Traced.ext_iff, Traced.val_bind,
    Traced.events_bind, result, and_self]

/-- The iteration that ends the loop. -/
theorem rvmVmRun_of_not_pending (fuel : Nat) {vm : RvmVm} (h : vm.pending = none) :
    (rvmVmRun (fuel + 1) vm).val = some (if vm.cpu.halt = true then 0 else -1, vm) ∧
      ((∃ e ∈ (rvmVmRun (fuel + 1) vm).events, e.isError = true) ↔ vm.cpu.halt = false) := by
  have cases_ := vm.cycle_cases
  cases halt : vm.cpu.halt with
  | true =>
    simp only [rvmVmRun, halt, ↓reduceIte, Traced.val_pure, Traced.events_pure]
    exact ⟨trivial, iff_of_false (by simp) (by simp)⟩
  | false =>
    simp only [rvmVmRun, halt, Bool.false_eq_true, ↓reduceIte, Traced.val_bind, Traced.events_bind]
    generalize vm.cycle.val.1 = ret, vm.cycle.val.2 = vm', vm.cycle.events = events at cases_
    cases cases_ with
    | halted halt' => exact absurd (halt.symm.trans halt') Bool.false_ne_true
    | executed pending _ _ => cases h.symm.trans pending
    | ripOutOfBounds _ _ =>
      simp only [↓reduceIte, Traced.val_bind, Traced.events_bind, Traced.val_pure]
      refine ⟨trivial, iff_of_true ⟨_, List.mem_append_left _ (List.mem_singleton.mpr rfl), rfl⟩ ?_⟩
      exact trivial

/-- **What `rvm_vm_run` returns**, and when its loop is long enough. -/
theorem rvmVmRun_eq_some {fuel : Nat} {vm vm' : RvmVm} {ret : Int} :
    (rvmVmRun fuel vm).val = some (ret, vm') ↔ ∃ k < fuel, vm.EndsAfter k ∧ vm' = vm.after k ∧
      ret = if vm'.cpu.halt = true then 0 else -1 := by
  induction fuel generalizing vm with
  | zero =>
    refine iff_of_false (fun h => ?_) fun ⟨_, h, _⟩ => absurd h (Nat.not_lt_zero _)
    cases h
  | succ fuel ih =>
    cases pending : vm.pending with
    | none =>
      rw [(rvmVmRun_of_not_pending fuel pending).1]
      constructor
      · intro h
        cases h
        exact ⟨0, Nat.succ_pos fuel, RvmVm.endsAfter_zero.mpr pending, rfl, rfl⟩
      · rintro ⟨k, _, ends, rfl, rfl⟩
        cases k with
        | zero => rfl
        | succ k =>
          have first := (RvmVm.endsAfter_succ.mp ends).1
          rw [pending] at first
          cases first
    | some instr =>
      have first : vm.pending.isSome = true := by rw [pending]; rfl
      rw [rvmVmRun_of_pending fuel first]
      refine ih.trans ⟨?_, ?_⟩
      · rintro ⟨k, hk, ends, rfl, rfl⟩
        refine ⟨k + 1, Nat.succ_lt_succ hk, RvmVm.endsAfter_succ.mpr ⟨first, ends⟩, ?_, rfl⟩
        exact (RvmVm.after_cycle vm k).symm
      · rintro ⟨k, hk, ends, rfl, rfl⟩
        cases k with
        | zero =>
          rw [RvmVm.endsAfter_zero.mp ends] at pending
          cases pending
        | succ k =>
          refine ⟨k, Nat.lt_of_succ_lt_succ hk, (RvmVm.endsAfter_succ.mp ends).2, ?_, rfl⟩
          exact RvmVm.after_cycle vm k

/-- The loop is still going after so many iterations when all of them fetched. -/
theorem rvmVmRun_eq_none {fuel : Nat} {vm : RvmVm} :
    (rvmVmRun fuel vm).val = none ↔ ∀ j < fuel, (vm.after j).pending.isSome = true := by
  constructor
  · intro going
    by_contra stops
    push Not at stops
    obtain ⟨inside, idle⟩ := Nat.find_spec stops
    have ends : vm.EndsAfter (Nat.find stops) := by
      refine ⟨fun j before => ?_, Option.not_isSome_iff_eq_none.mp idle⟩
      by_contra pending
      exact Nat.find_min stops before ⟨Nat.lt_trans before inside, pending⟩
    rw [rvmVmRun_eq_some.mpr ⟨_, inside, ends, rfl, rfl⟩] at going
    cases going
  · intro fetches
    refine Option.eq_none_iff_forall_ne_some.mpr fun ⟨ret, vm'⟩ returned => ?_
    obtain ⟨k, inside, ends, _⟩ := rvmVmRun_eq_some.mp returned
    have pending := fetches k inside
    rw [ends.2] at pending
    cases pending

/-- The return code is decided by when the machine has halted and when it fetches. -/
theorem rvmVmRun_fst_congr {fuel : Nat} {vm vm' : RvmVm}
    (same : ∀ j < fuel, (vm'.after j).cpu.halt = (vm.after j).cpu.halt ∧
      (vm'.after j).pending.isSome = (vm.after j).pending.isSome) :
    (rvmVmRun fuel vm').val.map Prod.fst = (rvmVmRun fuel vm).val.map Prod.fst := by
  induction fuel generalizing vm vm' with
  | zero => rfl
  | succ fuel ih =>
    obtain ⟨halt, fetches⟩ := same 0 (Nat.succ_pos fuel)
    simp only [RvmVm.after_zero] at halt fetches
    cases pending : vm.pending with
    | none =>
      rw [pending] at fetches
      have idle := Option.not_isSome_iff_eq_none.mp (Bool.eq_false_iff.mp fetches)
      rw [(rvmVmRun_of_not_pending fuel idle).1, (rvmVmRun_of_not_pending fuel pending).1, halt]
      rfl
    | some instr =>
      rw [pending] at fetches
      rw [rvmVmRun_of_pending fuel fetches, rvmVmRun_of_pending fuel (by rw [pending]; rfl)]
      refine ih fun j inside => ?_
      have later := same (j + 1) (Nat.succ_lt_succ inside)
      rwa [RvmVm.after_cycle, RvmVm.after_cycle] at later

/-- The errors a run reports: those of its instructions, and that rip left the program region. -/
theorem rvmVmRun_isError {fuel k : Nat} {vm : RvmVm} (ends : vm.EndsAfter k) (long : k < fuel) :
    (∃ e ∈ (rvmVmRun fuel vm).events, e.isError = true) ↔
      (∃ j < k, (vm.after j).faults) ∨ (vm.after k).cpu.halt = false := by
  induction k generalizing fuel vm with
  | zero =>
    obtain ⟨fuel, rfl⟩ := Nat.exists_eq_add_one_of_ne_zero (Nat.ne_of_gt long)
    refine (rvmVmRun_of_not_pending fuel ends.2).2.trans ?_
    exact (or_iff_right fun ⟨_, h, _⟩ => absurd h (Nat.not_lt_zero _)).symm
  | succ k ih =>
    obtain ⟨fuel, rfl⟩ := Nat.exists_eq_add_one_of_ne_zero (by omega : fuel ≠ 0)
    obtain ⟨first, rest⟩ := RvmVm.endsAfter_succ.mp ends
    have reports : vm.faults ↔ ∃ e ∈ vm.cycle.events, e.isError = true :=
      vm.endsInError_iff.symm.trans (and_iff_right first)
    rw [rvmVmRun_of_pending fuel first]
    simp only [List.mem_append, or_and_right, exists_or, ← reports]
    rw [ih rest (Nat.lt_of_succ_lt_succ long), ← or_assoc, RvmVm.after_cycle]
    refine or_congr_left ⟨?_, ?_⟩
    · rintro (now | ⟨j, hj, later⟩)
      · exact ⟨0, Nat.succ_pos k, now⟩
      · exact ⟨j + 1, Nat.succ_lt_succ hj, RvmVm.after_cycle vm j ▸ later⟩
    · rintro ⟨j, hj, faults⟩
      cases j with
      | zero => exact .inl faults
      | succ j => exact .inr ⟨j, Nat.lt_of_succ_lt_succ hj, RvmVm.after_cycle vm j ▸ faults⟩

/-! ## Success and failure -/

/-- An instruction halts the CPU when it ends in an error, or is a RET with nothing to pop. -/
theorem Outcome.halt_iff {cpu : RvmCpu} {mem : RvmMemory} {instr : RvmInstr} {op : RvmOpcode}
    {out : RvmCpu × RvmMemory} {events : List RvmEvent} (running : cpu.halt = false)
    (h : Outcome cpu mem instr op out events) : out.1.halt = true ↔
      op.faults cpu mem instr ∨ (op = .ret ∧ 0xFEFE < cpu.regs.rsp.toNat) := by
  have stays : ∀ {cpu' : RvmCpu}, cpu'.halt = cpu.halt → ¬ cpu'.halt = true := by
    intro cpu' same halt
    exact Bool.false_ne_true (running.symm.trans (same.symm.trans halt))
  constructor
  · intro halt
    have error := h.isError_iff
    cases h with
    | computed _ _ computes _ => exact absurd halt (stays computes.halt)
    | compared flags _ => exact absurd halt (stays flags.halt)
    | loaded _ | stored _ | passed _ _ | jumped _ _ | called _ _ | returned _ _ =>
      exact absurd halt (stays rfl)
    | exited empty => exact .inr ⟨rfl, empty⟩
    | dividedByZero _ _ | loadFault _ | storeFault _ | jumpFault _ _ | callFault _
    | callOverflow _ _ => exact .inl (error.mp ⟨_, List.mem_singleton.mpr rfl, rfl⟩)
    | returnFault _ _ =>
      have last : ∀ {a b c : RvmEvent}, c ∈ [a, b, c] := by simp
      exact .inl (error.mp ⟨_, last, rfl⟩)
  · rintro (faults | ⟨ret, empty⟩)
    · rcases h.of_faults faults with ⟨_, rfl⟩ | ⟨_, rfl⟩ <;> rfl
    · subst ret
      rcases h.ret with ⟨_, rfl, _⟩ | ⟨nonempty, _⟩ | ⟨nonempty, _⟩
      · rfl
      · omega
      · omega

namespace RvmVm

/-- The next cycle is a RET with nothing to pop. -/
def Exits (vm : RvmVm) : Prop := vm.pendingOpcode = some .ret ∧ 0xFEFE < vm.cpu.regs.rsp.toNat

/-- A cycle that fetches halts the CPU when its instruction ends in an error or exits. -/
theorem cycle_halt_iff {vm : RvmVm} {instr : RvmInstr} (pending : vm.pending = some instr) :
    vm.cycle.val.2.cpu.halt = true ↔ vm.faults ∨ vm.Exits := by
  obtain ⟨running, _, decoded⟩ := pending_eq_some.mp pending
  obtain ⟨op, hop⟩ := rvmDecode_opcode_code (vm.mem.word vm.cpu.regs.rip.toNat)
  rw [decoded] at hop
  have opcode := pendingOpcode_of_pending pending hop
  rw [cycle_val pending opcode, faults_iff pending opcode, Exits, opcode, Option.some_inj]
  exact (handler_outcome vm.fetched vm.mem instr op).halt_iff running

/-- A cycle that ends in an error or exits is one that fetches. -/
theorem pending_of_ending {vm : RvmVm} (ending : vm.faults ∨ vm.Exits) :
    ∃ instr, vm.pending = some instr := by
  rcases ending with ⟨instr, _, pending, _⟩ | ⟨opcode, _⟩
  · exact ⟨instr, pending⟩
  · cases pending : vm.pending with
    | some instr => exact ⟨instr, rfl⟩
    | none =>
      rw [pendingOpcode, pending] at opcode
      cases opcode

/-- An instruction that ends in an error or exits is the last one of the run, and the CPU has
halted. -/
theorem EndsAfter.of_ending {vm : RvmVm} {k j : Nat} (ends : vm.EndsAfter k)
    (ending : (vm.after j).faults ∨ (vm.after j).Exits) :
    j + 1 = k ∧ (vm.after k).cpu.halt = true := by
  obtain ⟨instr, pending⟩ := pending_of_ending ending
  have halts : (vm.after (j + 1)).cpu.halt = true := by
    rw [after_succ]
    exact (cycle_halt_iff pending).mpr ending
  have last := ends.last (Option.isSome_iff_exists.mpr ⟨instr, pending⟩) halts
  exact ⟨last, last ▸ halts⟩

end RvmVm

/-- The run ends by a RET that finds no call pending. -/
def EndsByRet (vm : RvmVm) : Prop :=
  ∃ j, (vm.after j).pendingOpcode = some .ret ∧ vm.calls j = vm.pops j

/-- A RET exits exactly when no call is pending. -/
theorem Loads.exits_iff {file : RvmFile} {vm : RvmVm} (loaded : Loads file vm) (j : Nat) :
    (vm.after j).Exits ↔
      (vm.after j).pendingOpcode = some .ret ∧ vm.calls j = vm.pops j := by
  have account := loaded.account j
  have high := (loaded.inv j).rsp_high
  have odd := (loaded.inv j).rsp_odd
  refine and_congr_right fun _ => ⟨fun empty => ?_, fun none => ?_⟩ <;> omega

/-- A run without a failing instruction ends with the CPU halted exactly when it ends by a RET. -/
theorem Loads.halt_iff {file : RvmFile} {vm : RvmVm} (loaded : Loads file vm) {k : Nat}
    (ends : vm.EndsAfter k) (clean : ∀ j, ¬ (vm.after j).faults) :
    (vm.after k).cpu.halt = true ↔ EndsByRet vm := by
  constructor
  · intro halt
    cases k with
    | zero =>
      have start : (vm.after 0).cpu.halt = false := congrArg RvmCpu.halt loaded.cpu
      cases start.symm.trans halt
    | succ k =>
      obtain ⟨instr, pending⟩ := Option.isSome_iff_exists.mp (ends.1 k (Nat.lt_succ_self k))
      rw [RvmVm.after_succ, RvmVm.cycle_halt_iff pending] at halt
      exact ⟨k, (loaded.exits_iff k).mp (halt.resolve_left (clean k))⟩
  · rintro ⟨j, exit⟩
    exact (ends.of_ending (.inr ((loaded.exits_iff j).mpr exit))).2

/-- **Success and failure of a run.** When `rvm_vm_run` returns, 0 means that the run ended by a RET
with an empty call stack and every reported error makes it return -1, if and only if no instruction
of the run ended in an error. -/
theorem run_result_iff {file : RvmFile} {vm vm' : RvmVm} {fuel : Nat} {ret : Int}
    (loaded : Loads file vm) (returned : (rvmVmRun fuel vm).val = some (ret, vm')) :
    ((ret = 0 ↔ EndsByRet vm) ∧
        ((∃ e ∈ (rvmVmRun fuel vm).events, e.isError = true) → ret = -1)) ↔
      ∀ j, ¬ (vm.after j).faults := by
  obtain ⟨k, long, ends, rfl, rfl⟩ := rvmVmRun_eq_some.mp returned
  have errors := rvmVmRun_isError ends long
  constructor
  · rintro ⟨_, tells⟩ j faults
    -- a failing instruction halts the CPU, and the run reports success
    obtain ⟨last, halts⟩ := ends.of_ending (.inl faults)
    have failure := tells (errors.mpr (.inl ⟨j, by omega, faults⟩))
    rw [if_pos halts] at failure
    cases failure
  · intro clean
    refine ⟨?_, fun reported => ?_⟩
    · rw [← loaded.halt_iff ends clean]
      split
      · next halt => exact iff_of_true rfl halt
      · next running => exact iff_of_false (by decide) running
    · rcases errors.mp reported with ⟨j, _, faults⟩ | running
      · exact absurd faults (clean j)
      · rw [running]
        rfl

/-- MOV rv0, 7 and a division by zero. -/
def divisionByZero : List Byte := [0x07, 0x00, 0x00, 0x60]

def divisionVm : RvmVm := { freshVm with mem := freshVm.mem.copy divisionByZero }

theorem division_returned : (rvmVmRun 3 divisionVm).val = some (0, divisionVm.after 2) :=
  rvmVmRun_eq_some.mpr
    ⟨2, Nat.lt_succ_self 2, ⟨by decide +kernel, by decide +kernel⟩, rfl, by decide +kernel⟩

theorem run_result_division : (((0 : Int) = 0 ↔ EndsByRet divisionVm) ∧
      ((∃ e ∈ (rvmVmRun 3 divisionVm).events, e.isError = true) → (0 : Int) = -1)) ↔
    ∀ j, ¬ (divisionVm.after j).faults :=
  run_result_iff (show Loads { content := divisionByZero } divisionVm from rfl) division_returned

/-- The run that divides by zero returns 0. -/
theorem division_by_zero_succeeds : ¬ ∀ (file : RvmFile) (vm vm' : RvmVm) (fuel : Nat) (ret : Int),
    Loads file vm → (rvmVmRun fuel vm).val = some (ret, vm') →
    (ret = 0 ↔ EndsByRet vm) ∧
      ((∃ e ∈ (rvmVmRun fuel vm).events, e.isError = true) → ret = -1) := by
  intro tells
  have failure := (tells { content := divisionByZero } divisionVm _ 3 0 rfl division_returned).2
    (by decide +kernel)
  cases failure

end RocketVm
