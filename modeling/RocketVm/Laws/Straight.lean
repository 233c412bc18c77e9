import RocketVm.Laws.Load
import RocketVm.Laws.Runs
import RocketVm.Laws.Transfer

/-!
# Straight-line images

An image of arithmetic instructions and a final RET is executed word by word. `Walk` is the state
after the first `k` words, `walk` carries it from word to word as far as the fetch goes, and
`straight_image_runs_iff` says for which lengths that is the end of the image.
-/

namespace RocketVm

open Lib

/-- The opcodes of a straight line: they compute on registers and cannot fail. -/
def RvmOpcode.straight : RvmOpcode → Bool
  | .mov | .add | .sub | .mul | .shl | .shr | .cmp => true
  | _ => false

/-- The word is an instruction of a straight line. -/
def StraightWord (w : Word) : Prop :=
  ∃ op : RvmOpcode, op.straight = true ∧ (rvmDecode w).opcode = op.code

/-- An instruction of a straight line leaves memory, rip, rsp and the halt flag alone. -/
theorem Outcome.straight {cpu : RvmCpu} {mem : RvmMemory} {instr : RvmInstr} {op : RvmOpcode}
    {out : RvmCpu × RvmMemory} {events : List RvmEvent} (straight : op.straight = true)
    (h : Outcome cpu mem instr op out events) :
    out.2 = mem ∧ out.1.halt = cpu.halt ∧ out.1.regs.rip = cpu.regs.rip ∧
      out.1.regs.rsp = cpu.regs.rsp := by
  cases h with
  | computed _ _ computes _ => exact ⟨rfl, computes.halt, computes.rip, computes.rsp⟩
  | compared flags _ => exact ⟨rfl, flags.halt, flags.rip, flags.rsp⟩
  | dividedByZero divides _ => rcases divides with rfl | rfl <;> cases straight
  | passed jump _ => rcases jump with rfl | rfl <;> cases straight
  | jumpFault taken _ | jumped taken _ =>
    rcases RvmOpcode.branches_jumps taken with rfl | rfl | rfl <;> cases straight
  | _ => cases straight

/-- The machine after the first `k` words of a straight line. -/
structure Walk (start : RvmVm) (k : Nat) (vm : RvmVm) : Prop where
  halt : vm.cpu.halt = false
  rip : vm.cpu.regs.rip.toNat = 2 * k
  rsp : vm.cpu.regs.rsp = start.cpu.regs.rsp
  mem : vm.mem = start.mem

/-- The word at an address is the next one. -/
theorem Walk.pending {start vm : RvmVm} {k : Nat} {w : Word} (h : Walk start k vm)
    (inside : 2 * k ≤ 0x7FFD) (word : start.mem.word (2 * k) = w) :
    vm.pending = some (rvmDecode w) := by
  refine RvmVm.pending_eq_some.mpr ⟨h.halt, h.rip ▸ inside, ?_⟩
  rw [h.rip, h.mem, word]

/-- One word further. -/
theorem Walk.step {start vm : RvmVm} {k : Nat} {w : Word} (h : Walk start k vm)
    (inside : 2 * k ≤ 0x7FFD) (word : start.mem.word (2 * k) = w) (straight : StraightWord w) :
    Walk start (k + 1) vm.cycle.val.2 := by
  obtain ⟨op, line, code⟩ := straight
  have pending := h.pending inside word
  have opcode := RvmVm.pendingOpcode_of_pending pending code
  obtain ⟨mem, halt, rip, rsp⟩ := (handler_outcome vm.fetched vm.mem (rvmDecode w) op).straight line
  have next : (vm.cpu.regs.rip + 2).toNat = vm.cpu.regs.rip.toNat + 2 :=
    toNat_add_two (by rw [h.rip]; omega)
  rw [RvmVm.cycle_val pending opcode]
  refine ⟨halt.trans h.halt, ?_, rsp.trans h.rsp, mem.trans h.mem⟩
  calc ((op.handler vm.fetched vm.mem (rvmDecode w)).val.1.regs.rip).toNat
      = (vm.cpu.regs.rip + 2).toNat := congrArg BitVec.toNat rip
    _ = vm.cpu.regs.rip.toNat + 2 := next
    _ = 2 * (k + 1) := by rw [h.rip]; omega

/-- The walk along the words of a straight line, as far as the fetch goes. -/
theorem walk {vm : RvmVm} {body : List Word} (start : Walk vm 0 vm)
    (words : ∀ i w, body[i]? = some w → vm.mem.word (2 * i) = w)
    (straight : ∀ w ∈ body, StraightWord w) :
    ∀ k, k ≤ body.length → k ≤ 0x3FFF → Walk vm k (vm.after k) := by
  intro k
  induction k with
  | zero => exact fun _ _ => start
  | succ k ih =>
    intro inside low
    have word := List.getElem?_eq_getElem (Nat.lt_of_succ_le inside)
    rw [RvmVm.after_succ]
    exact (ih (by omega) (by omega)).step (by omega) (words k _ word)
      (straight _ (List.getElem_mem _))

/-- The machine executes every word once in address order, halts after the last one with memory
unchanged, and `rvm_vm_run` returns 0. -/
structure RunsThrough (vm : RvmVm) (ws : List Word) : Prop where
  each : ∀ i w, ws[i]? = some w →
    (vm.after i).cpu.regs.rip.toNat = 2 * i ∧ (vm.after i).pending = some (rvmDecode w)
  halts : (vm.after ws.length).cpu.halt = true
  memory : (vm.after ws.length).mem = vm.mem
  returns : ∃ fuel, (rvmVmRun fuel vm).val = some (0, vm.after ws.length)

/-- A RET with an empty call stack ends the walk. -/
theorem Walk.exit {vm : RvmVm} {k : Nat} {last : Word} (h : Walk vm k (vm.after k))
    (inside : 2 * k ≤ 0x7FFD) (word : vm.mem.word (2 * k) = last)
    (ret : (rvmDecode last).opcode = RvmOpcode.ret.code) (empty : 0xFEFE < vm.cpu.regs.rsp.toNat) :
    (vm.after (k + 1)).cpu.halt = true ∧ (vm.after (k + 1)).mem = vm.mem := by
  have pending := h.pending inside word
  have opcode := RvmVm.pendingOpcode_of_pending pending ret
  have empty' : 0xFEFE < (vm.after k).fetched.regs.rsp.toNat := by
    show 0xFEFE < (vm.after k).cpu.regs.rsp.toNat
    rw [h.rsp]
    exact empty
  rw [RvmVm.after_succ, RvmVm.cycle_val pending opcode]
  simp only [RvmOpcode.handler, ret_val, empty', ↓reduceIte]
  exact ⟨rfl, h.mem⟩

/-- An image of words is loaded, and the words are found at twice their index. -/
theorem loads_straight {ws : List Word} (some_ : ws ≠ []) (size : ws.length ≤ 0x4000) :
    ∃ vm, Loads { content := wordsToBytes ws } vm ∧ vm.cpu = freshVm.cpu ∧
      ∀ i w, ws[i]? = some w → vm.mem.word (2 * i) = w := by
  have bytes := length_wordsToBytes ws
  have pos := List.length_pos_of_ne_nil some_
  have fits : (wordsToBytes ws).length ≤ RVM_MEMORY_SIZE := by
    unfold RVM_MEMORY_SIZE
    omega
  have nonempty : wordsToBytes ws ≠ [] := by
    intro empty
    rw [empty, List.length_nil] at bytes
    omega
  exact ⟨_, rvmVmLoad_ok freshVm nonempty fits, rfl, fun i w at_ => freshVm.mem.word_copy at_ fits⟩

/-- A walk that reaches the final RET runs through. -/
theorem Walk.runsThrough {vm : RvmVm} {body : List Word} {last : Word}
    (line : ∀ k, k ≤ body.length → k ≤ 0x3FFF → Walk vm k (vm.after k))
    (words : ∀ i w, (body ++ [last])[i]? = some w → vm.mem.word (2 * i) = w)
    (ret : (rvmDecode last).opcode = RvmOpcode.ret.code) (empty : 0xFEFE < vm.cpu.regs.rsp.toNat)
    (small : body.length + 1 ≤ 0x3FFF) : RunsThrough vm (body ++ [last]) := by
  have length : (body ++ [last]).length = body.length + 1 := List.length_append
  have each : ∀ i w, (body ++ [last])[i]? = some w →
      (vm.after i).cpu.regs.rip.toNat = 2 * i ∧ (vm.after i).pending = some (rvmDecode w) := by
    intro i w at_
    have index := (List.getElem?_eq_some_iff.mp at_).1
    rw [length] at index
    have here := line i (by omega) (by omega)
    exact ⟨here.rip, here.pending (by omega) (words i w at_)⟩
  have final : (body ++ [last])[body.length]? = some last := List.getElem?_concat_length
  obtain ⟨halt, memory⟩ := (line body.length (Nat.le_refl _) (by omega)).exit (by omega)
    (words _ _ final) ret empty
  have ends : vm.EndsAfter (body.length + 1) := by
    refine ⟨fun j hj => ?_, ?_⟩
    · have at_ := List.getElem?_eq_getElem (length.symm ▸ hj)
      rw [(each j _ at_).2]
      rfl
    · cases pending : (vm.after (body.length + 1)).pending with
      | none => rfl
      | some instr => cases halt.symm.trans (RvmVm.pending_eq_some.mp pending).1
  refine ⟨each, length.symm ▸ halt, length.symm ▸ memory, body.length + 2, ?_⟩
  rw [length]
  refine rvmVmRun_eq_some.mpr ⟨_, Nat.lt_succ_self _, ends, rfl, ?_⟩
  rw [halt, if_pos rfl]

/-- **Straight-line images.** An image of at most 0x4000 words, a straight line and a final RET, is
loaded, and runs through if and only if it has at most 0x3FFF words: the fetch refuses the last
word of the program region. -/
theorem straight_image_runs_iff {body : List Word} {last : Word}
    (straight : ∀ w ∈ body, StraightWord w)
    (ret : (rvmDecode last).opcode = RvmOpcode.ret.code) (size : body.length + 1 ≤ 0x4000) :
    ∃ vm, Loads { content := wordsToBytes (body ++ [last]) } vm ∧
      (RunsThrough vm (body ++ [last]) ↔ body.length + 1 ≤ 0x3FFF) := by
  have length : (body ++ [last]).length = body.length + 1 := List.length_append
  obtain ⟨vm, loads, cpu, words⟩ :=
    loads_straight (List.append_ne_nil_of_right_ne_nil body (List.cons_ne_nil last []))
      (length.symm ▸ size)
  refine ⟨vm, loads, fun through => ?_, fun small => ?_⟩
  · have final : (body ++ [last])[body.length]? = some last := List.getElem?_concat_length
    obtain ⟨rip, pending⟩ := through.each _ _ final
    have inside := (RvmVm.pending_eq_some.mp pending).2.1
    omega
  · have start : Walk vm 0 vm := ⟨by rw [cpu]; rfl, by rw [cpu]; rfl, rfl, rfl⟩
    have front : ∀ i w, body[i]? = some w → vm.mem.word (2 * i) = w := by
      intro i w at_
      refine words i w ?_
      rw [List.getElem?_append_left (List.getElem?_eq_some_iff.mp at_).1, at_]
    have empty : 0xFEFE < vm.cpu.regs.rsp.toNat := by
      rw [cpu]
      decide
    exact Walk.runsThrough (walk start front straight) words ret empty small

/-- MOV rv0, 5 and ADD rv0, 3. -/
def sumWords : List Word := [rvmMovImm 0 5, rvmAddImm 0 3]

theorem straight_image_runs_sum :
    ∃ vm, Loads { content := wordsToBytes (sumWords ++ [rvmRet]) } vm ∧
      (RunsThrough vm (sumWords ++ [rvmRet]) ↔ sumWords.length + 1 ≤ 0x3FFF) :=
  straight_image_runs_iff
    (List.forall_mem_cons.mpr ⟨⟨.mov, rfl, rfl⟩, List.forall_mem_singleton.mpr ⟨.add, rfl, rfl⟩⟩)
    (by decide) (by decide)

/-- An image that fills the program region with MOV instructions up to a final RET does not run
through. -/
theorem full_region_does_not_run : ¬ ∀ (body : List Word) (last : Word) (vm : RvmVm),
    (∀ w ∈ body, StraightWord w) → (rvmDecode last).opcode = RvmOpcode.ret.code →
    body.length + 1 ≤ 0x4000 → Loads { content := wordsToBytes (body ++ [last]) } vm →
    RunsThrough vm (body ++ [last]) := by
  intro runs
  let body : List Word := List.replicate 0x3FFF 0
  have length : body.length = 0x3FFF := List.length_replicate
  have moves : ∀ w ∈ body, StraightWord w := by
    intro w hw
    cases List.eq_of_mem_replicate hw
    exact ⟨.mov, rfl, rfl⟩
  have bytes : (wordsToBytes (body ++ [rvmRet])).length = 0x8000 := by
    rw [length_wordsToBytes, List.length_append, length, List.length_singleton]
  have nonempty : wordsToBytes (body ++ [rvmRet]) ≠ [] := by
    intro empty
    rw [empty] at bytes
    cases bytes
  have loaded := rvmVmLoad_ok freshVm nonempty (by rw [bytes]; decide)
  have through := runs body rvmRet _ moves (by decide) (by rw [length]) loaded
  -- the RET is the word at 0x7FFE
  have final : (body ++ [rvmRet])[body.length]? = some rvmRet := List.getElem?_concat_length
  obtain ⟨rip, pending⟩ := through.each _ _ final
  have inside := (RvmVm.pending_eq_some.mp pending).2.1
  omega

end RocketVm
