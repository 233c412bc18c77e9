import RocketVm.Laws.Commands
import RocketVm.Laws.Refinement

/-!
# From source file to exit code

`rocketasm` and then `rocketrun` on the file it left: the exit code is decided by the source-level
machine alone. `ConfinedIn` says of a state of that machine what `Confined` says of the real one,
and `Refines.confined` is the step between the two.
-/

namespace RocketVm

open Lib

/-! ## Confinement -/

/-- A state of the source-level machine that has not halted is at an instruction of the program,
and if that is a STORE to an even address, it does not write over the program. -/
def SourceState.ConfinedIn (program : RsmProgram) (s : SourceState) : Prop :=
  s.halt = false → ∃ instr, program.instrs.items[s.pc]? = some instr ∧
    ∀ mem, instr.opcode = .store → instr.opr1 = .mem mem → (s.address mem).toNat % 2 = 0 →
      2 * program.instrs.items.length ≤ (s.address mem).toNat

/-- The word of a supported STORE has the address of its operand for its source. -/
theorem store_source {program : RsmProgram} {i : Nat} {instr : RsmInstr}
    (accepted : Accepted instr) (supported : SupportedAt program i instr)
    (store : instr.opcode = .store) {w : Word}
    (encoded : (rsmEncodeInstr program instr i).val = w.toNat) (s : SourceState) :
    ∃ mem, instr.opr1 = .mem mem ∧ (rvmDecode w).source s.cpu = s.address mem := by
  cases accepted_shape accepted.check with
  | @store mem rvs =>
    obtain ⟨mode, operand, found, source⟩ := mem_source program .store rvs s
      (fun same => accepted.mem1 (congrArg _ same))
      (fun name same => (supported.brackets name).1 (congrArg _ same))
      fun v same => supported.numbers v (.inr (.inl (congrArg _ same)))
    have value := encode_store program i rvs mem
    rw [RsmMem.encoded, found] at value
    obtain rfl := word_unique encoded value
    exact ⟨mem, rfl, source⟩
  | sourceImm other | sourceReg other | toLabel other | toReg other | toImm other =>
    cases store
    cases other
  | load | ret => cases store

/-- The only write of a cycle that executes a STORE is to its source, which is even. -/
theorem RvmVm.store_write {vm : RvmVm} {instr : RvmInstr} (pending : vm.pending = some instr)
    (opcode : vm.pendingOpcode = some .store) {offset data : Word}
    (write : .write offset data ∈ vm.cycle.events) :
    offset = instr.source vm.fetched ∧ offset.toNat % 2 = 0 := by
  have outcome := handler_outcome vm.fetched vm.mem instr .store
  rw [cycle_of_pending pending (pending_code pending opcode)] at write
  simp only [List.mem_cons, reduceCtorEq, false_or] at write
  generalize (RvmOpcode.handler .store vm.fetched vm.mem instr).val = out,
    (RvmOpcode.handler .store vm.fetched vm.mem instr).events = events at outcome write
  cases outcome with
  | stored even =>
    cases List.mem_singleton.mp write
    exact ⟨rfl, even⟩
  | storeFault fault => cases List.mem_singleton.mp write
  | computed writes => cases writes
  | dividedByZero divides => rcases divides with h | h <;> cases h
  | passed jump => rcases jump with h | h <;> cases h
  | jumpFault taken | jumped taken => cases taken

/-- A machine in a state of the source-level machine is confined where that is. -/
theorem Refines.confined {program : RsmProgram} (supported : Supported program)
    (accepted : ∀ instr ∈ program.instrs.items, Accepted instr) {vm : RvmVm} {s : SourceState}
    (refines : Refines program vm s) (confined : s.ConfinedIn program) : Confined program vm := by
  obtain ⟨rfl, pc, words⟩ := refines
  have small := supported.small
  have rip : s.vm.cpu.regs.rip.toNat = 2 * s.pc := SourceState.rip_toNat pc
  constructor
  · intro fetches
    obtain ⟨decoded, pending⟩ := Option.isSome_iff_exists.mp fetches
    obtain ⟨instr, at_, _⟩ := confined (RvmVm.pending_eq_some.mp pending).1
    have inside := (List.getElem?_eq_some_iff.mp at_).1
    omega
  · intro opcode offset data write
    obtain ⟨decoded, pending, code⟩ := Option.bind_eq_some_iff.mp opcode
    obtain ⟨running, _, decode⟩ := RvmVm.pending_eq_some.mp pending
    obtain ⟨instr, at_, outside⟩ := confined running
    have inside := (List.getElem?_eq_some_iff.mp at_).1
    have member := List.mem_of_getElem? at_
    have encoded := words s.pc instr at_
    rw [rip] at decode
    have matches_ := exec_matches (accepted instr member) (supported.each s.pc instr at_)
      (by omega) encoded (s := s.next) rfl
    rw [decode] at matches_
    have store : instr.opcode = .store := by
      rw [matches_.1, RvmOpcode.ofCode?_code] at code
      exact Option.some_inj.mp code
    obtain ⟨mem, operand, source⟩ := store_source (accepted instr member)
      (supported.each s.pc instr at_) store encoded s.next
    obtain ⟨rfl, even⟩ := RvmVm.store_write pending opcode write
    rw [s.fetched_next, ← decode, source] at even ⊢
    exact outside mem store operand even

/-! ## The source-level run -/

/-- What is written of a program when every word is written. -/
def imageOf (program : RsmProgram) : List Byte :=
  wordsToBytes (wordsFrom program 0 program.instrs.items)

/-- The source-level machine after `k` steps, over a fresh memory with the image of the program. -/
def sourceRun (program : RsmProgram) (k : Nat) : SourceState :=
  (SourceState.step program)^[k] (SourceState.start (freshVm.mem.copy (imageOf program)))

/-- A state of the source-level machine that has halted is its last one. -/
theorem sourceRun_of_halted {program : RsmProgram} {k j : Nat}
    (halted : (sourceRun program k).halt = true) (later : k ≤ j) :
    sourceRun program j = sourceRun program k := by
  induction j, later using Nat.le_induction with
  | base => rfl
  | succ j _ same =>
    rw [sourceRun, Function.iterate_succ_apply', ← sourceRun, same]
    exact if_pos halted

/-- The machine with the image of the program loaded. -/
def imageVm (program : RsmProgram) : RvmVm :=
  { freshVm with mem := freshVm.mem.copy (imageOf program) }

theorem imageOf_length (program : RsmProgram) :
    (imageOf program).length = 2 * program.instrs.items.length := by
  rw [imageOf, length_wordsToBytes, length_wordsFrom]

section Run

variable {program : RsmProgram} {fuel : Nat}

theorem imageVm_words (supported : Supported program)
    (accepted : ∀ instr ∈ program.instrs.items, Accepted instr) :
    HoldsWords program (imageVm program).mem := by
  obtain ⟨bytes, vm, emitted, loaded, words⟩ := loads_words supported accepted []
  obtain rfl : bytes = imageOf program := rsmEmitBinary_bytes emitted
  have length := imageOf_length program
  have nonempty := supported.nonempty
  have small := supported.small
  have some_ : imageOf program ≠ [] := fun none => by
    rw [none, List.length_nil] at length
    omega
  have size : (imageOf program).length ≤ RVM_MEMORY_SIZE := by
    unfold RVM_MEMORY_SIZE
    omega
  rw [Loads, rvmVmLoad_ok freshVm some_ size] at loaded
  cases loaded
  exact words

/-- As long as the source-level machine is confined, the machine is in its state. -/
theorem imageVm_refines (supported : Supported program)
    (accepted : ∀ instr ∈ program.instrs.items, Accepted instr)
    (confined : ∀ j < fuel, (sourceRun program j).ConfinedIn program) :
    ∀ k ≤ fuel, Refines program ((imageVm program).after k) (sourceRun program k) := by
  intro k
  induction k with
  | zero => exact fun _ => ⟨rfl, Nat.zero_lt_succ _, imageVm_words supported accepted⟩
  | succ k ih =>
    intro inside
    have before := ih (Nat.le_of_succ_le inside)
    rw [RvmVm.after_succ, sourceRun, Function.iterate_succ_apply']
    exact before.step supported accepted
      (before.confined supported accepted (confined k inside))

/-- A machine in a confined state fetches exactly when the source-level machine has not halted. -/
theorem Refines.pending_iff (supported : Supported program) {vm : RvmVm} {s : SourceState}
    (refines : Refines program vm s) (confined : s.ConfinedIn program) :
    vm.pending.isSome = true ↔ s.halt = false := by
  obtain ⟨rfl, pc, _⟩ := refines
  have small := supported.small
  have rip : s.vm.cpu.regs.rip.toNat = 2 * s.pc := SourceState.rip_toNat pc
  rw [Option.isSome_iff_exists]
  constructor
  · rintro ⟨instr, pending⟩
    exact (RvmVm.pending_eq_some.mp pending).1
  · intro running
    obtain ⟨instr, at_, _⟩ := confined running
    have inside := (List.getElem?_eq_some_iff.mp at_).1
    exact ⟨_, RvmVm.pending_eq_some.mpr ⟨running, by omega, rfl⟩⟩

/-- The machine ends where the source-level machine halts. -/
theorem imageVm_ends (supported : Supported program)
    (accepted : ∀ instr ∈ program.instrs.items, Accepted instr) {k : Nat}
    (confined : ∀ j < k, (sourceRun program j).ConfinedIn program)
    (running : ∀ j < k, (sourceRun program j).halt = false)
    (halted : (sourceRun program k).halt = true) :
    (imageVm program).EndsAfter k ∧ (imageVm program).after k = (sourceRun program k).vm := by
  have refines := imageVm_refines supported accepted confined
  have stays : (sourceRun program k).ConfinedIn program := fun going =>
    absurd (halted.symm.trans going) (by decide)
  refine ⟨⟨fun j before => ?_, ?_⟩, (refines k (Nat.le_refl k)).same⟩
  · exact ((refines j (Nat.le_of_lt before)).pending_iff supported (confined j before)).mpr
      (running j before)
  · refine Option.not_isSome_iff_eq_none.mp fun pending => ?_
    have going := ((refines k (Nat.le_refl k)).pending_iff supported stays).mp pending
    exact Bool.false_ne_true (going.symm.trans halted)

/-- `rvm_vm_run` on the image returns 0 once the source-level machine halts, and not before. -/
theorem imageVm_run (supported : Supported program)
    (accepted : ∀ instr ∈ program.instrs.items, Accepted instr)
    (confined : ∀ j < fuel, (sourceRun program j).ConfinedIn program) :
    ((rvmVmRun fuel (imageVm program)).val.map Prod.fst) =
      if ∃ k < fuel, (sourceRun program k).halt = true then some 0 else none := by
  split
  · next halts =>
    -- the first state that has halted ends the run
    obtain ⟨inside, halted⟩ := Nat.find_spec halts
    obtain ⟨ends, same⟩ := imageVm_ends supported accepted
      (fun j before => confined j (Nat.lt_trans before inside))
      (fun j before => Bool.eq_false_iff.mpr fun halt =>
        Nat.find_min halts before ⟨Nat.lt_trans before inside, halt⟩) halted
    rw [rvmVmRun_eq_some.mpr ⟨_, inside, ends, rfl, rfl⟩, same, if_pos]
    · rfl
    · exact halted
  · next runs =>
    rw [Option.map_eq_none_iff, rvmVmRun_eq_none]
    intro j inside
    have refines := imageVm_refines supported accepted confined j (Nat.le_of_lt inside)
    exact (refines.pending_iff supported (confined j inside)).mpr
      (Bool.eq_false_iff.mpr fun halt => runs ⟨j, inside, halt⟩)

end Run

/-! ## The two commands -/

/-- `rocketrun` gets its machine, and this content from a path. -/
structure RvmHost.Reads (host : RvmHost) (path : String) (content : List Byte) : Prop where
  access : host.access path = true
  malloc : host.malloc = true
  read : rvmIoReadFile (host.files path) = some content

theorem rvmMain_val {host : RvmHost} {path : String} {content : List Byte}
    (reads : host.Reads path content) (size : content.length ≤ RVM_MEMORY_SIZE) (fuel : Nat)
    (name : String) (args : List String) :
    (rvmMain host fuel (name :: path :: args)).val =
      ((rvmVmRun fuel { freshVm with mem := freshVm.mem.copy content }).val.map Prod.fst).map
        fun ret => if ret = -1 then -1 else 0 := by
  have fits : ¬ content.length > RVM_MEMORY_SIZE - RVM_MEMORY_PROGRAM_START := by
    unfold RVM_MEMORY_PROGRAM_START
    omega
  have loaded : ¬ (0 : Int) = -1 := by decide
  simp only [rvmMain, reads.access, rvmVmCreate, reads.malloc, rvmVmLoad, reads.read, fits, loaded,
    ↓reduceIte, Bool.not_true, Bool.false_eq_true, Traced.val_bind, Traced.val_mapEvents]
  cases (rvmVmRun fuel { freshVm with mem := freshVm.mem.copy content }).val with
  | none => rfl
  | some result =>
    dsimp only [Option.map_some]
    split <;> rfl

/-- **From source file to exit code.** Of a supported program whose file can be written in full,
`rocketasm` leaves an image, and `rocketrun`, reading it back, returns 0 as soon as the source-level
machine has halted and is still running while that has not, as long as that machine stays inside
the program and does not store over it. -/
theorem commands_run_source {host : RsmHost} {argv : List String} {input output : String}
    {program : RsmProgram} (given : 2 ≤ argv.length) (gives : Gives argv.tail (some input) output)
    (translates : Translates host input program) (supported : Supported program)
    (opened : (host.output output).fopen = true)
    (complete : ∀ i < program.instrs.items.length, 2 ≤ (host.output output).fwrite i) :
    ∃ files, (rsmMain host argv).val = some (0, files) ∧
      ∀ (runner : RvmHost) (name : String) (args : List String) (fuel : Nat),
        runner.Reads output (files output).content →
        (∀ j < fuel, (sourceRun program j).ConfinedIn program) →
        (rvmMain runner fuel (name :: output :: args)).val =
          if ∃ k < fuel, (sourceRun program k).halt = true then some 0 else none := by
  obtain ⟨rsm, _, parses⟩ := translates.parses
  have accepted := parses.accepted
  have small := supported.small
  have all : AllEncoded program 0 program.instrs.items := fun i instr at_ => by
    rw [Nat.zero_add]
    exact (supported.each i instr at_).encodes (accepted instr (List.mem_of_getElem? at_))
  have emits := (@rsmEmitBinary_ends (host.output output) program (host.files output).content
    _).1.mpr ⟨opened, all, rfl⟩
  have returned := (rsmMain_leaves host argv).unique given gives translates emits
  have written : writtenBytes (host.output output) 0 (wordsFrom program 0 program.instrs.items) =
      imageOf program := by
    refine writtenBytes_complete fun j inside => ?_
    rw [length_wordsFrom] at inside
    rw [Nat.zero_add]
    exact complete j inside
  refine ⟨_, returned, fun runner name args fuel reads confined => ?_⟩
  have content : (host.files.write output (imageOf program) output).content = imageOf program := by
    rw [Files.write, if_pos rfl]
  rw [written, content] at reads
  have size : (imageOf program).length ≤ RVM_MEMORY_SIZE := by
    rw [imageOf_length]
    unfold RVM_MEMORY_SIZE
    omega
  rw [rvmMain_val reads size, ← imageVm, imageVm_run supported accepted confined]
  split <;> rfl

/-- The source `MOV rv0,3`, `a:ADD rv1,5`, `SUB rv0,1`, `JNZ a`, `RET`, a line each: five, three
times. -/
def timesSource : List Byte := bytesOf "MOV rv0,3\na:ADD rv1,5\nSUB rv0,1\nJNZ a\nRET"

def timesProgram : RsmProgram :=
  { instrs :=
      ⟨[⟨.mov, .reg 0, .imm 3⟩, ⟨.add, .reg 1, .imm 5⟩, ⟨.sub, .reg 0, .imm 1⟩,
        ⟨.jnz, .label labelA, .none⟩, ⟨.ret, .none, .none⟩], 1024, 1024⟩
    labels := ⟨[⟨labelA, 1⟩], 1024, 1024⟩ }

theorem times_parses : Parses (fun _ => true) timesSource timesProgram := by
  unfold Parses
  decide +kernel

theorem times_supported : Supported timesProgram := by
  refine ⟨by decide, by decide, fun i instr at_ => ?_⟩
  have small : ∀ v : SInt32, v = 3 ∨ v = 5 ∨ v = 1 → 0 ≤ v.toInt ∧ v.toInt ≤ 255 := by
    rintro v (rfl | rfl | rfl) <;> decide
  rcases i with _ | _ | _ | _ | _ | i <;> cases at_
  case succ.succ.succ.zero =>
    refine ⟨?_, fun name => ⟨nofun, nofun⟩, fun _ => rfl, fun _ name same => ?_⟩
    · rintro v (h | h | h | h) <;> cases h
    · cases same
      exact ⟨1, rfl, by decide⟩
  all_goals
    refine ⟨?_, fun name => ⟨nofun, nofun⟩, nofun, nofun⟩
    rintro v (h | h | h | h) <;> cases h <;> exact small _ (by decide)

theorem times_halts : (sourceRun timesProgram 11).halt = true := by decide +kernel

theorem times_confined (j : Nat) : (sourceRun timesProgram j).ConfinedIn timesProgram := by
  intro going
  rcases Nat.lt_or_ge j 11 with before | later
  · have inside : (sourceRun timesProgram j).pc < 5 := by
      interval_cases j <;> decide +kernel
    have noStore : ∀ instr ∈ timesProgram.instrs.items, instr.opcode ≠ .store := by decide
    exact ⟨_, List.getElem?_eq_getElem inside, fun _ store =>
      absurd store (noStore _ (List.getElem_mem inside))⟩
  · rw [sourceRun_of_halted times_halts later, times_halts] at going
    cases going

/-- A host on which every file holds this source and every library call succeeds. -/
def timesHost : RsmHost where
  files _ := { content := timesSource }
  access _ := true
  lexerMalloc := true
  parserMalloc := true
  programMalloc := true
  realloc _ := true
  output _ := .working
  debug := false

/-- Cut off after eleven cycles `rocketrun` is still running, and after twelve it has returned. -/
theorem commands_run_source_times :
    ∃ files, (rsmMain timesHost ["rocketasm", "times.rsm"]).val = some (0, files) ∧
      ∀ runner : RvmHost, runner.Reads "out.rvm" (files "out.rvm").content →
        (rvmMain runner 11 ["rocketrun", "out.rvm"]).val = none ∧
          (rvmMain runner 12 ["rocketrun", "out.rvm"]).val = some 0 := by
  obtain ⟨files, returned, runs⟩ := @commands_run_source timesHost ["rocketasm", "times.rsm"]
    "times.rsm" "out.rvm" timesProgram (Nat.le_refl 2)
    ⟨[.input "times.rsm" (by decide)], rfl, rfl, rfl⟩
    ⟨rfl, rfl, rfl, rfl, ⟨timesSource, rfl, times_parses⟩, by decide⟩ times_supported rfl
    fun _ _ => Nat.le_refl 2
  refine ⟨files, returned, fun runner reads => ?_⟩
  rw [runs runner _ [] 11 reads fun j _ => times_confined j,
    runs runner _ [] 12 reads fun j _ => times_confined j]
  refine ⟨if_neg ?_, if_pos ⟨11, by decide, times_halts⟩⟩
  rintro ⟨k, before, halted⟩
  have running : (sourceRun timesProgram k).halt = false := by
    interval_cases k <;> decide +kernel
  rw [running] at halted
  cases halted

end RocketVm
