import RocketVm.Laws.Arithmetic
import RocketVm.Laws.Pipeline
import RocketVm.Lib.Triples

/-!
# Proofs about programs

Rules of pre- and postconditions for the source-level machine: one instruction, a loop that counts
a register down, and a call of a procedure. `image_correct_iff` takes what is proved of it to the
loaded image.
-/

namespace RocketVm

open Lib

/-- The program gets from every state with `P` to one with `Q`, and on the way it stays at its
instructions and does not store over them. -/
abbrev Proves (program : RsmProgram) (P Q : SourceState → Prop) : Prop :=
  Triple (SourceState.step program) (SourceState.ConfinedIn program) P Q

/-- Running, at an index. -/
structure SourceState.At (s : SourceState) (i : Nat) : Prop where
  pc : s.pc = i
  running : s.halt = false

section Rules

variable {program : RsmProgram} {i : Nat} {instr : RsmInstr} {P Q : SourceState → Prop}

/-- Any instruction but a STORE is confined. -/
theorem SourceState.At.confinedIn {s : SourceState} (at_ : s.At i)
    (fetch : program.instrs.items[i]? = some instr) (other : instr.opcode ≠ .store) :
    s.ConfinedIn program :=
  fun _ => ⟨instr, at_.pc ▸ fetch, fun _ store => absurd store other⟩

/-- **One instruction.** -/
theorem Proves.exec (fetch : program.instrs.items[i]? = some instr)
    (next : ∀ s, s.At i → P s → s.ConfinedIn program ∧ Q (SourceState.exec program instr s.next)) :
    Proves program (fun s => s.At i ∧ P s) Q := by
  refine Triple.of_step fun s ⟨at_, before⟩ => ⟨(next s at_ before).1, ?_⟩
  rw [SourceState.step_exec at_.running (at_.pc.symm ▸ fetch)]
  exact (next s at_ before).2

end Rules

/-! ## Counting loops -/

/-- The states agree on the memory, on rsp, and on every register but one. -/
structure SourceState.AgreeBut (r : RvmReg) (s t : SourceState) : Prop where
  rv : ∀ r', r' ≠ r → t.rv r' = s.rv r'
  rsp : t.rsp = s.rsp
  mem : t.mem = s.mem

/-- `SUB r, 1`. -/
structure SourceState.Counted (r : RvmReg) (s t : SourceState) : Prop extends s.AgreeBut r t where
  pc : t.pc = s.pc
  halt : t.halt = s.halt
  count : t.rv r = s.rv r - 1
  zero : t.cpu.flagCheck RVM_CPU_FLAG_RZ = true ↔ s.rv r = 1

theorem SourceState.exec_sub_one (program : RsmProgram) (r : RvmReg) (s : SourceState) :
    s.Counted r (exec program ⟨.sub, .reg r, .imm 1⟩ s) := by
  have subtracts := subTo_subtracts s.cpu r 1
  have flags := subtract_flagsOnly s.cpu (s.rv r) 1
  have count : (subTo s.cpu r 1).val.regs.rv r = s.rv r - 1 := by
    have value := subtracts.value
    have small := (s.rv r).isLt
    refine BitVec.eq_of_toNat_eq ?_
    rw [BitVec.toNat_sub]
    change (_ : Int) = ((s.rv r).toNat - 1 : Int) % 2 ^ 16 at value
    show _ = (2 ^ 16 - 1 + (s.rv r).toNat) % 2 ^ 16
    omega
  refine ⟨⟨fun r' other => ?_, flags.rsp, rfl⟩, rfl, flags.halt, count, ?_⟩
  · exact (if_neg other).trans (congrFun flags.rv r')
  · refine subtracts.result.zero.trans ?_
    rw [count, ← BitVec.toNat_inj, BitVec.toNat_sub]
    have small := (s.rv r).isLt
    show (2 ^ 16 - 1 + (s.rv r).toNat) % 2 ^ 16 = 0 ↔ (s.rv r).toNat = 1
    omega

theorem SourceState.exec_jnz (program : RsmProgram) (name : RsmIdent) (s : SourceState) :
    exec program ⟨.jnz, .label name, .none⟩ s =
      if s.cpu.flagCheck RVM_CPU_FLAG_RZ then s
      else s.goTo ((program.address? name).map BitVec.toNat) := rfl

section Counting

variable {program : RsmProgram} {i j n : Nat} {r : RvmReg} {name : RsmIdent} {start : Word}
  {I : Nat → SourceState → Prop}

/-- The end of a turn: the count is `n`, and RZ tells whether there is another one. -/
theorem Proves.sub_one (sub : program.instrs.items[j]? = some ⟨.sub, .reg r, .imm 1⟩)
    (stable : ∀ n s t, SourceState.AgreeBut r s t → I n s → I n t) (small : n < 0x10000) :
    Proves program (fun s => s.At j ∧ s.rv r = BitVec.ofNat 16 (n + 1) ∧ I n s)
      fun s => s.At (j + 1) ∧ s.rv r = BitVec.ofNat 16 n ∧
        (s.cpu.flagCheck RVM_CPU_FLAG_RZ = true ↔ n = 0) ∧ I n s := by
  refine Proves.exec sub fun s at_ ⟨count, holds⟩ => ⟨at_.confinedIn sub nofun, ?_⟩
  have after := SourceState.exec_sub_one program r s.next
  have count : s.next.rv r = BitVec.ofNat 16 (n + 1) := count
  refine ⟨⟨?_, after.halt.trans at_.running⟩, ?_, ?_, ?_⟩
  · rw [after.pc, SourceState.next, at_.pc]
  · rw [after.count, count, BitVec.ofNat_add]
    exact BitVec.add_sub_cancel _ _
  · rw [after.zero, count, ← BitVec.toNat_inj, BitVec.toNat_ofNat]
    show (n + 1) % 2 ^ 16 = 1 ↔ n = 0
    omega
  · exact stable n _ _ after.toAgreeBut (stable n s s.next ⟨fun _ _ => rfl, rfl, rfl⟩ holds)

/-- The branch back, taken as long as the count is not zero. -/
theorem Proves.jnz_back (jnz : program.instrs.items[j]? = some ⟨.jnz, .label name, .none⟩)
    (label : program.address? name = some start) (target : start.toNat = i)
    (stable : ∀ n s t, SourceState.AgreeBut r s t → I n s → I n t) :
    Proves program
      (fun s => s.At j ∧ s.rv r = BitVec.ofNat 16 n ∧
        (s.cpu.flagCheck RVM_CPU_FLAG_RZ = true ↔ n = 0) ∧ I n s)
      fun s => (s.At (j + 1) ∧ s.rv r = 0 ∧ I 0 s) ∨
        ∃ m < n, s.At i ∧ s.rv r = BitVec.ofNat 16 (m + 1) ∧ I (m + 1) s := by
  refine Proves.exec jnz fun s at_ ⟨count, zero, holds⟩ => ⟨at_.confinedIn jnz nofun, ?_⟩
  have zero : s.next.cpu.flagCheck RVM_CPU_FLAG_RZ = true ↔ n = 0 := zero
  rw [SourceState.exec_jnz]
  cases n with
  | zero =>
    rw [if_pos (zero.mpr rfl)]
    refine .inl ⟨⟨?_, at_.running⟩, count, stable 0 s _ ⟨fun _ _ => rfl, rfl, rfl⟩ holds⟩
    rw [SourceState.next, at_.pc]
  | succ m =>
    rw [if_neg fun last => Nat.succ_ne_zero m (zero.mp last), label, Option.map_some, target]
    exact .inr ⟨m, Nat.lt_succ_self m, ⟨rfl, at_.running⟩, count,
      stable _ s _ ⟨fun _ _ => rfl, rfl, rfl⟩ holds⟩

/-- **Counting loops.** A loop that ends in `SUB r, 1` and a JNZ to its start, and whose body keeps
an assertion with one less to go, runs as often as `r` says, and 65536 times if `r` is zero. The
assertion is one about the memory, rsp and the other registers, which the SUB and the JNZ leave. -/
theorem countdown_loop (sub : program.instrs.items[j]? = some ⟨.sub, .reg r, .imm 1⟩)
    (jnz : program.instrs.items[j + 1]? = some ⟨.jnz, .label name, .none⟩)
    (label : program.address? name = some start) (target : start.toNat = i)
    (stable : ∀ n s t, SourceState.AgreeBut r s t → I n s → I n t)
    (body : ∀ n < 0x10000, Proves program
      (fun s => s.At i ∧ s.rv r = BitVec.ofNat 16 (n + 1) ∧ I (n + 1) s)
      (fun s => s.At j ∧ s.rv r = BitVec.ofNat 16 (n + 1) ∧ I n s)) (count : Word) :
    Proves program (fun s => s.At i ∧ s.rv r = count ∧ I ((count - 1).toNat + 1) s)
      (fun s => s.At (j + 2) ∧ s.rv r = 0 ∧ I 0 s) := by
  have turns : ∀ n, Proves program
      (fun s => n < 0x10000 ∧ s.At i ∧ s.rv r = BitVec.ofNat 16 (n + 1) ∧ I (n + 1) s)
      (fun s => s.At (j + 2) ∧ s.rv r = 0 ∧ I 0 s) := by
    refine Triple.loop Nat.lt_wfRel.wf fun n s ⟨small, before⟩ => ?_
    refine (((body n small s before).seq (Proves.sub_one sub stable small)).seq
      (Proves.jnz_back jnz label target stable)).seq (Triple.skip fun t => ?_)
    rintro (exits | ⟨m, less, again⟩)
    · exact .inl exits
    · exact .inr ⟨m, less, Nat.lt_trans less small, again⟩
  refine (turns (count - 1).toNat).pre fun s ⟨at_, counts, holds⟩ => ⟨?_, at_, ?_, holds⟩
  · exact (count - 1).isLt
  · rw [counts, BitVec.ofNat_add, BitVec.ofNat_toNat, BitVec.setWidth_eq]
    exact (BitVec.sub_add_cancel _ _).symm

end Counting

/-- What is left to add up to 15, with this many turns to go. -/
def Remaining (n : Nat) (s : SourceState) : Prop := s.rv 1 + BitVec.ofNat 16 (5 * n) = 15

/-- The body of the loop, `ADD rv1,5`. -/
theorem times_body (n : Nat) : Proves timesProgram
    (fun s => s.At 1 ∧ s.rv 0 = BitVec.ofNat 16 (n + 1) ∧ Remaining (n + 1) s)
    fun s => s.At 2 ∧ s.rv 0 = BitVec.ofNat 16 (n + 1) ∧ Remaining n s := by
  have fetch : timesProgram.instrs.items[1]? = some ⟨.add, .reg 1, .imm 5⟩ := rfl
  refine Proves.exec fetch fun s at_ ⟨count, remaining⟩ => ⟨at_.confinedIn fetch nofun, ?_⟩
  have computes := addTo_computes s.next.cpu 1 5
  have sum : (addTo s.next.cpu 1 5).val.regs.rv 1 = s.rv 1 + 5 :=
    BitVec.eq_of_toNat_eq ((addTo_sums s.next.cpu 1 5).value.trans (BitVec.toNat_add _ _).symm)
  have other : (addTo s.next.cpu 1 5).val.regs.rv 0 = s.rv 0 := computes.rv_of_ne (by decide)
  refine ⟨⟨congrArg (· + 1) at_.pc, computes.halt.trans at_.running⟩, other.trans count, ?_⟩
  show (addTo s.next.cpu 1 5).val.regs.rv 1 + _ = (15 : Word)
  rw [sum, ← remaining, Nat.mul_succ, BitVec.ofNat_add, BitVec.add_assoc, BitVec.add_comm 5]
  rfl

/-- Three turns, from rv1 = 0 to rv1 = 15. -/
theorem countdown_loop_times : Proves timesProgram
    (fun s => s.At 1 ∧ s.rv 0 = 3 ∧ Remaining (((3 : Word) - 1).toNat + 1) s)
    fun s => s.At 4 ∧ s.rv 0 = 0 ∧ Remaining 0 s :=
  @countdown_loop timesProgram 1 2 0 labelA 1 Remaining rfl rfl rfl rfl
    (fun _ s t agree left => (congrArg (· + _) (agree.rv 1 (by decide))).trans left)
    (fun n _ => times_body n) 3

/-! ## Procedures -/

/-- The top of the stack, and the words from there on. -/
structure SourceState.StackIs (s : SourceState) (rsp : Word) (words : Nat → Word) : Prop where
  top : s.rsp = rsp
  words : ∀ a, a % 2 = 1 → rsp.toNat ≤ a → a < RVM_MEMORY_STACK_END → s.mem.word a = words a

/-- **A procedure**: entered at an index, it gets to a RET with the stack as it was. -/
def Procedure (program : RsmProgram) (entry : Nat) (P Q : SourceState → Prop) : Prop :=
  ∀ rsp words, Proves program (fun s => s.At entry ∧ s.StackIs rsp words ∧ P s) fun s =>
    ∃ i, s.At i ∧ program.instrs.items[i]? = some ⟨.ret, .none, .none⟩ ∧ s.StackIs rsp words ∧ Q s

/-- The state behind a CALL at an index. -/
def SourceState.called (s : SourceState) (i entry : Nat) : SourceState :=
  { s with pc := entry, rsp := s.rsp - 2,
           mem := s.mem.setWord (s.rsp.toNat - 2) (BitVec.ofNat 16 (2 * (i + 1))) }

/-- The state behind a RET to an index. -/
def SourceState.returned (s : SourceState) (i : Nat) : SourceState :=
  { s with pc := i, rsp := s.rsp + 2 }

section Procedures

variable {program : RsmProgram} {i entry : Nat} {P Q : SourceState → Prop} {rsp : Word}
  {words : Nat → Word}

theorem SourceState.StackIs.called {s : SourceState} (stack : s.StackIs rsp words)
    (odd : rsp.toNat % 2 = 1) (room : 0xF002 ≤ rsp.toNat) (i entry : Nat) :
    (s.called i entry).StackIs (rsp - 2)
      (Function.update words (rsp.toNat - 2) (BitVec.ofNat 16 (2 * (i + 1)))) := by
  obtain ⟨rfl, same⟩ := stack
  have high := s.rsp.isLt
  have top := toNat_sub_two (w := s.rsp) (by omega)
  refine ⟨rfl, fun a odd' above below => ?_⟩
  show (s.mem.setWord _ _).word a = _
  rw [top] at above
  by_cases new : a = s.rsp.toNat - 2
  · rw [new, Function.update_self]
    exact RvmMemory.word_setWord_self _ _ (by omega)
  · rw [Function.update_of_ne new,
      RvmMemory.word_setWord_of_disjoint _ _ (by omega) (by omega)]
    exact same a odd' (by omega) below

/-- The RET of a called procedure finds the return address and the caller's stack. -/
theorem SourceState.StackIs.returned {s : SourceState} {word : Word}
    (stack : s.StackIs (rsp - 2) (Function.update words (rsp.toNat - 2) word))
    (odd : rsp.toNat % 2 = 1) (room : 0xF002 ≤ rsp.toNat) (top : rsp.toNat ≤ RVM_MEMORY_STACK_END)
    (i : Nat) : s.mem.word s.rsp.toNat = word ∧ (s.returned i).StackIs rsp words := by
  have high := rsp.isLt
  have slot := toNat_sub_two (w := rsp) (by omega)
  have popped : rsp - 2 + 2 = rsp := BitVec.sub_add_cancel _ _
  have below : rsp.toNat - 2 < RVM_MEMORY_STACK_END := by omega
  constructor
  · rw [stack.top, slot, stack.words _ (by omega) (Nat.le_of_eq slot) below, Function.update_self]
  · refine ⟨?_, fun a odd' above below => ?_⟩
    · show s.rsp + 2 = rsp
      rw [stack.top, popped]
    · show s.mem.word a = words a
      rw [stack.words a odd' (by omega) below, Function.update_of_ne (by omega)]

theorem SourceState.exec_call {s : SourceState} {name : RsmIdent} {start : Word}
    (label : program.address? name = some start) (room : 0xF002 ≤ s.rsp.toNat) :
    exec program ⟨.call, .label name, .none⟩ s.next = s.called s.pc start.toNat := by
  show s.next.call ((program.address? name).map BitVec.toNat) = _
  rw [label, Option.map_some]
  exact if_pos room

theorem SourceState.exec_ret {s : SourceState} {i : Nat} (small : i < 0x8000)
    (nonempty : ¬ 0xFEFE < s.rsp.toNat) (word : s.mem.word s.rsp.toNat = BitVec.ofNat 16 (2 * i)) :
    exec program ⟨.ret, .none, .none⟩ s.next = s.returned i := by
  have double : (BitVec.ofNat 16 (2 * i)).toNat = 2 * i := by
    rw [BitVec.toNat_ofNat]
    omega
  refine (if_neg nonempty).trans ?_
  show goTo _ (indexOf (s.mem.word s.rsp.toNat)) = _
  rw [word, indexOf_double double]
  rfl

/-- **Calls.** A CALL of a procedure, with room on the stack, comes back to the next instruction
with the stack as it was. -/
theorem call_returns {name : RsmIdent} {start : Word}
    (call : program.instrs.items[i]? = some ⟨.call, .label name, .none⟩)
    (label : program.address? name = some start) (target : start.toNat = entry)
    (small : i + 1 < 0x8000) (procedure : Procedure program entry P Q)
    (odd : rsp.toNat % 2 = 1) (room : 0xF002 ≤ rsp.toNat)
    (top : rsp.toNat ≤ RVM_MEMORY_STACK_END) :
    Proves program (fun s => s.At i ∧ s.StackIs rsp words ∧ P (s.called i entry)) fun s =>
      s.At (i + 1) ∧ s.StackIs rsp words ∧ ∃ t, Q t ∧ s = t.returned (i + 1) := by
  have calls : Proves program (fun s => s.At i ∧ s.StackIs rsp words ∧ P (s.called i entry))
      fun s => s.At entry ∧ s.StackIs (rsp - 2) (Function.update words (rsp.toNat - 2)
        (BitVec.ofNat 16 (2 * (i + 1)))) ∧ P s := by
    refine Proves.exec call fun s at_ ⟨stack, before⟩ => ⟨at_.confinedIn call nofun, ?_⟩
    rw [SourceState.exec_call label (stack.top ▸ room), at_.pc, target]
    exact ⟨⟨rfl, at_.running⟩, stack.called odd room i entry, before⟩
  refine (calls.seq (procedure _ _)).seq fun s ⟨j, at_, ret, stack, after⟩ => ?_
  refine Proves.exec ret (P := fun t => t = s) (fun t at_ same => ?_) s ⟨at_, rfl⟩
  obtain rfl := same
  obtain ⟨word, back⟩ := stack.returned odd room top (i + 1)
  have nonempty : ¬ 0xFEFE < t.rsp.toNat := by
    rw [stack.top, toNat_sub_two (by omega)]
    exact Nat.not_lt.mpr (Nat.sub_le_of_le_add (Nat.le_trans top (by decide)))
  rw [SourceState.exec_ret small nonempty word]
  exact ⟨at_.confinedIn ret nofun, ⟨rfl, at_.running⟩, back, t, after, rfl⟩

end Procedures

/-- `CALL a`, `RET`, `a: RET`. -/
def callProgram : RsmProgram :=
  { instrs := ⟨[⟨.call, .label labelA, .none⟩, ⟨.ret, .none, .none⟩, ⟨.ret, .none, .none⟩], 1024,
      1024⟩
    labels := ⟨[⟨labelA, 2⟩], 1024, 1024⟩ }

theorem call_returns_ret :
    Proves callProgram
      (fun s => s.At 0 ∧ s.StackIs 0xFEFD (fun _ => 4) ∧ (s.called 0 2).rv 0 = 7)
      fun s => s.At 1 ∧ s.StackIs 0xFEFD (fun _ => 4) ∧
        ∃ t : SourceState, t.rv 0 = 7 ∧ s = t.returned 1 :=
  @call_returns callProgram 0 2 (fun s => s.rv 0 = 7) (fun s => s.rv 0 = 7) 0xFEFD (fun _ => 4)
    labelA 2 rfl rfl rfl (by decide) (fun _ _ => Triple.skip fun _ ⟨at_, stack, holds⟩ =>
      ⟨2, at_, rfl, stack, holds⟩) (by decide) (by decide) (by decide)

/-! ## Images -/

section Image

variable {program : RsmProgram}

/-- The source-level machine gets to a halt with `Q` exactly when the machine does. -/
theorem image_gets_iff (supported : Supported program)
    (accepted : ∀ instr ∈ program.instrs.items, Accepted instr) (Q : RvmVm → Prop) :
    ((∃ fuel vm, (rvmVmRun fuel (imageVm program)).val = some (0, vm) ∧ Q vm) ∧
        ∀ j, (sourceRun program j).ConfinedIn program) ↔
      Gets (SourceState.step program) (SourceState.ConfinedIn program)
        (fun s => s.halt = true ∧ Q s.vm) (sourceRun program 0) := by
  constructor
  · rintro ⟨⟨fuel, vm, returned, holds⟩, confined⟩
    obtain ⟨k, _, _, rfl, code⟩ := rvmVmRun_eq_some.mp returned
    have same := (imageVm_refines supported accepted (fun j _ => confined j) k (Nat.le_refl k)).same
    have halted : ((imageVm program).after k).cpu.halt = true := by
      by_contra running
      rw [if_neg running] at code
      cases code
    rw [same] at halted holds
    exact ⟨k, ⟨halted, holds⟩, fun j _ => confined j⟩
  · rintro ⟨k, ⟨halted, holds⟩, via⟩
    have halts : ∃ k, (sourceRun program k).halt = true := ⟨k, halted⟩
    have first : Nat.find halts ≤ k := Nat.find_le halted
    have confined : ∀ j, (sourceRun program j).ConfinedIn program := by
      intro j
      rcases Nat.lt_or_ge j k with before | later
      · exact via j before
      · rw [sourceRun_of_halted halted later]
        exact fun going => absurd (halted.symm.trans going) (by decide)
    obtain ⟨ends, same⟩ := imageVm_ends supported accepted (fun j _ => confined j)
      (fun j before => Bool.eq_false_iff.mpr (Nat.find_min halts before)) (Nat.find_spec halts)
    refine ⟨⟨Nat.find halts + 1, _, rvmVmRun_eq_some.mpr
      ⟨_, Nat.lt_succ_self _, ends, rfl, ?_⟩, ?_⟩, confined⟩
    · rw [same]
      exact (if_pos (Nat.find_spec halts)).symm
    · rw [same, ← sourceRun_of_halted (Nat.find_spec halts) first]
      exact holds

/-- **Correct images.** `rvm_vm_run` returns 0 on the image of a program and leaves a state with
`Q`, without leaving the program or storing over it, exactly when there is an assertion with a rank
about the source-level machine that proves it. -/
theorem image_correct_iff (supported : Supported program)
    (accepted : ∀ instr ∈ program.instrs.items, Accepted instr) (Q : RvmVm → Prop) :
    ((∃ fuel vm, (rvmVmRun fuel (imageVm program)).val = some (0, vm) ∧ Q vm) ∧
        ∀ j, (sourceRun program j).ConfinedIn program) ↔
      ∃ I : Nat → SourceState → Prop,
        (∃ n, I n (SourceState.start (freshVm.mem.copy (imageOf program)))) ∧
          ∀ n s, I n s → (s.halt = true ∧ Q s.vm) ∨
            s.ConfinedIn program ∧ ∃ m < n, I m (s.step program) :=
  (image_gets_iff supported accepted Q).trans gets_iff_ranked

end Image

/-- The image of the loop is proved correct: it returns 0 with rv1 = 15. -/
theorem image_correct_iff_times :
    ∃ I : Nat → SourceState → Prop,
      (∃ n, I n (SourceState.start (freshVm.mem.copy (imageOf timesProgram)))) ∧
        ∀ n s, I n s → (s.halt = true ∧ s.vm.cpu.regs.rv 1 = 15) ∨
          s.ConfinedIn timesProgram ∧ ∃ m < n, I m (s.step timesProgram) := by
  have last : (sourceRun timesProgram 11).rv 1 = 15 := by decide +kernel
  have gets : Gets (SourceState.step timesProgram) (SourceState.ConfinedIn timesProgram)
      (fun s => s.halt = true ∧ s.vm.cpu.regs.rv 1 = 15) (sourceRun timesProgram 0) :=
    ⟨11, ⟨times_halts, last⟩, fun j _ => times_confined j⟩
  have returns := (image_gets_iff times_supported times_parses.accepted
    fun vm => vm.cpu.regs.rv 1 = 15).mpr gets
  exact (image_correct_iff times_supported times_parses.accepted
    fun vm => vm.cpu.regs.rv 1 = 15).mp returns

end RocketVm
