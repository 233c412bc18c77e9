import RocketVm.Asm.Emitter
import RocketVm.Laws.Encoder
import RocketVm.Laws.Parser
import RocketVm.Laws.Safety
import RocketVm.Laws.Transfer

/-!
# Labels on the machine

Where the words of instructions with a label take the machine. A jump arrives at its label when
the label is within the reach of the offset field, and the encoder refuses no other; a LOAD or
STORE with a label in brackets is only right for a label at the first instruction.
-/

namespace RocketVm

open Lib

/-! ## Labels of jumps -/

/-- The offset field of a jump at index `i` holds the distance to address `a`. -/
def Reaches (i : Nat) (a : Word) : Prop :=
  -1024 ≤ 2 * ((a.toNat : Int) - i - 1) ∧ 2 * ((a.toNat : Int) - i - 1) ≤ 1023

instance (i : Nat) (a : Word) : Decidable (Reaches i a) :=
  inferInstanceAs (Decidable (_ ∧ _))

/-- Executed at index `i`, with its branch condition true and room on the stack for a CALL, the
word takes the machine to address `a` without a fault. -/
def JumpLands (op : RvmOpcode) (w : Word) (i : Nat) (a : Word) : Prop :=
  ∀ vm : RvmVm, vm.cpu.halt = false → vm.cpu.regs.rip.toNat = 2 * i → vm.mem.word (2 * i) = w →
    (op ≠ .call → op.branches vm.cpu = true) →
    (op = .call → RVM_MEMORY_STACK_START + 2 ≤ vm.cpu.regs.rsp.toNat) →
    vm.cycle.val.1 = 0 ∧ vm.cycle.val.2.cpu.halt = false ∧
      vm.cycle.val.2.cpu.regs.rip.toNat = 2 * a.toNat

theorem intOfSize_eq {n : Nat} (h : n < 2 ^ 31) : intOfSize n = n := by
  rw [intOfSize, BitVec.toInt_eq_toNat_cond, BitVec.toNat_ofNat, Nat.mod_eq_of_lt (by omega),
    if_pos (by omega)]

theorem ofInt_toInt {x : Int} (low : -2 ^ 15 ≤ x) (high : x < 2 ^ 15) :
    (BitVec.ofInt 16 x).toInt = x := by
  rw [BitVec.toInt_ofInt]
  exact Int.bmod_eq_of_le (by omega) (by omega)

/-- A transfer to an even target leaves the machine there, running. -/
theorem transfer_lands {op : RvmOpcode} (transfers : op.transfers = true) {cpu : RvmCpu}
    (mem : RvmMemory) {instr : RvmInstr} (running : cpu.halt = false)
    (even : (transferTarget cpu instr).toNat % 2 = 0)
    (branches : op ≠ .call → op.branches cpu = true)
    (room : op = .call → RVM_MEMORY_STACK_START + 2 ≤ cpu.regs.rsp.toNat) :
    (op.handler cpu mem instr).val.1.halt = false ∧
      (op.handler cpu mem instr).val.1.regs.rip = transferTarget cpu instr := by
  have jump : op = .jmp ∨ op = .jz ∨ op = .jnz → op ≠ .call →
      (op.handler cpu mem instr).val.1.halt = false ∧
      (op.handler cpu mem instr).val.1.regs.rip = transferTarget cpu instr := by
    intro jumps call
    rw [jump_val cpu mem instr jumps, if_pos (branches call), RvmCpu.jumpTo, if_pos even]
    exact ⟨running, rfl⟩
  cases op with
  | jmp => exact jump (.inl rfl) (by decide)
  | jz => exact jump (.inr (.inl rfl)) (by decide)
  | jnz => exact jump (.inr (.inr rfl)) (by decide)
  | call =>
    show (rvmCpuExecCall cpu mem instr).val.1.halt = false ∧ _
    have := call_val cpu mem instr
    rw [if_pos ⟨even, room rfl⟩] at this
    exact ⟨congrArg (fun out => out.1.halt) this |>.trans running,
      congrArg (fun out => out.1.regs.rip) this⟩
  | _ => cases transfers

/-- Within its reach the word of a jump has the label's byte address for its target. -/
theorem target_of_reaches {cpu : RvmCpu} (op : RvmOpcode) (text : String) {i : Nat} {a : Word}
    (rip : cpu.regs.rip.toNat = 2 * i + 2) (small : i < 0x3FFF) (reaches : Reaches i a) :
    (transferTarget cpu (rvmDecode (ctrlImm op text
      (BitVec.ofInt 16 (((a.toNat : Int) - i - 1) * 2))).val)).toNat = 2 * a.toNat := by
  obtain ⟨low, high⟩ := reaches
  have offset := ofInt_toInt (x := ((a.toNat : Int) - i - 1) * 2) (by omega) (by omega)
  generalize BitVec.ofInt 16 (((a.toNat : Int) - i - 1) * 2) = simm at offset
  have signed := BitVec.toInt_eq_toNat_cond simm
  rw [transferTarget_ctrlImm _ _ (by omega), BitVec.toNat_add, rip]
  split at signed <;> omega

/-- Within its reach the word of a jump lands on the label. -/
theorem jump_lands {op : RvmOpcode} (transfers : op.transfers = true) {i : Nat} {a : Word}
    (small : i < 0x3FFF) (reaches : Reaches i a) (text : String) :
    JumpLands op (ctrlImm op text (BitVec.ofInt 16 (((a.toNat : Int) - i - 1) * 2))).val i a := by
  intro vm running rip word branches room
  have next : vm.fetched.regs.rip.toNat = 2 * i + 2 := by
    show (vm.cpu.regs.rip + 2).toNat = _
    rw [toNat_add_two (by omega), rip]
  have target := target_of_reaches op text next small reaches
  have opcode := @ctrlImm_opcode op text
    (BitVec.ofInt 16 (((a.toNat : Int) - i - 1) * 2))
  generalize (ctrlImm op text (BitVec.ofInt 16 (((a.toNat : Int) - i - 1) * 2))).val = w
    at word target opcode
  have pending : vm.pending = some (rvmDecode w) :=
    RvmVm.pending_eq_some.mpr ⟨running, by omega, by rw [rip, word]⟩
  have lands := @transfer_lands op transfers vm.fetched vm.mem (rvmDecode w) running (by omega)
    branches room
  rw [RvmVm.cycle_of_pending pending opcode]
  exact ⟨rfl, lands.1, by rw [← target, ← lands.2]⟩

/-- The word of a jump to a label at a distance within its reach lands on the label. -/
theorem label_jump_lands {program : RsmProgram} (small : program.instrs.items.length ≤ 0x3FFF)
    {i : Nat} {op : RvmOpcode} {name : RsmIdent} {opr2 : RsmOperand}
    (at_ : program.instrs.items[i]? = some ⟨op, .label name, opr2⟩)
    (transfers : op.transfers = true)
    {a : Word} (defined : program.address? name = some a) (reaches : Reaches i a) {w : Word}
    (encoded : (rsmEncodeInstr program ⟨op, .label name, opr2⟩ i).val = w.toNat) :
    JumpLands op w i a := by
  have inside : i < 0x3FFF := by
    obtain ⟨bound, _⟩ := List.getElem?_eq_some_iff.mp at_
    omega
  have value := encode_toLabel program i transfers defined opr2
  rw [intOfSize_eq (by omega)] at value
  have same : w = (ctrlImm op "" (BitVec.ofInt 16 (((a.toNat : Int) - i - 1) * 2))).val :=
    word_unique encoded value
  rw [same]
  exact jump_lands transfers inside reaches ""

/-- **Jumps to labels.** In a program of at most 0x3FFF instructions, the instruction at index `i`
transfers to a label whose first definition has address `a`. Then its word lands on the label and
an unreachable label is refused if and only if the label is within the reach of the offset field:
the encoder refuses none. -/
theorem label_jump {program : RsmProgram} (small : program.instrs.items.length ≤ 0x3FFF) {i : Nat}
    {instr : RsmInstr} (at_ : program.instrs.items[i]? = some instr)
    (transfers : instr.opcode.transfers = true) {name : RsmIdent} (label : instr.opr1 = .label name)
    {a : Word} (defined : program.address? name = some a) :
    ((∀ w : Word, (rsmEncodeInstr program instr i).val = w.toNat →
        JumpLands instr.opcode w i a) ∧
      (¬ Reaches i a → (rsmEncodeInstr program instr i).val = -1)) ↔ Reaches i a := by
  obtain ⟨op, opr1, opr2⟩ := instr
  obtain rfl : opr1 = .label name := label
  constructor
  · rintro ⟨_, refused⟩
    by_contra far
    have encoded := (encode_toLabel program i transfers defined opr2).symm.trans (refused far)
    omega
  · intro reaches
    exact ⟨fun w encoded => label_jump_lands small at_ transfers defined reaches encoded,
      fun far => absurd reaches far⟩

/-- The source `a:JMP a`, and what the parser builds from it. -/
def loopSource : List Byte := ['a', ':', 'J', 'M', 'P', ' ', 'a'].map chr

def loopProgram : RsmProgram :=
  { instrs := ⟨[⟨.jmp, .label labelA, .none⟩], 1024, 1024⟩
    labels := ⟨[⟨labelA, 0⟩], 1024, 1024⟩ }

theorem loop_parses : Parses (fun _ => true) loopSource loopProgram := by
  unfold Parses
  decide

theorem label_jump_loop :
    ((∀ w : Word, (rsmEncodeInstr loopProgram ⟨.jmp, .label labelA, .none⟩ 0).val = w.toNat →
        JumpLands .jmp w 0 0) ∧
      (¬ Reaches 0 0 → (rsmEncodeInstr loopProgram ⟨.jmp, .label labelA, .none⟩ 0).val = -1)) ↔
      Reaches 0 0 :=
  @label_jump loopProgram (by decide) 0 ⟨.jmp, .label labelA, .none⟩ rfl rfl labelA rfl 0 rfl

/-- A jump over 600 instructions. -/
def farProgram : RsmProgram :=
  { instrs := ⟨⟨.jmp, .label labelA, .none⟩ :: List.replicate 600 ⟨.ret, .none, .none⟩, 1024, 1024⟩
    labels := ⟨[⟨labelA, 601⟩], 1024, 1024⟩ }

theorem far_jump_not_refused :
    ¬ ((∀ w : Word, (rsmEncodeInstr farProgram ⟨.jmp, .label labelA, .none⟩ 0).val = w.toNat →
        JumpLands .jmp w 0 601) ∧
      (¬ Reaches 0 601 → (rsmEncodeInstr farProgram ⟨.jmp, .label labelA, .none⟩ 0).val = -1)) :=
  fun h => absurd (h.2 (by decide)) (by decide)

/-! ## Labels in brackets -/

/-- Executing the word accesses the memory at an address. -/
def Accesses (cpu : RvmCpu) (mem : RvmMemory) (w : Word) (address : Nat) : Prop :=
  ∃ e ∈ (rvmCpuExecute cpu mem (rvmDecode w)).events, ∃ offset,
    e.offset? = some offset ∧ offset.toNat = address

/-- LOAD and STORE access the address of their operand, when it is even, and nothing else. -/
theorem Outcome.accesses {cpu : RvmCpu} {mem : RvmMemory} {instr : RvmInstr} {op : RvmOpcode}
    {out : RvmCpu × RvmMemory} {events : List RvmEvent} (memory : op = .load ∨ op = .store)
    (h : Outcome cpu mem instr op out events) (address : Nat) :
    (∃ e ∈ events, ∃ offset, e.offset? = some offset ∧ offset.toNat = address) ↔
      (instr.source cpu).toNat % 2 = 0 ∧ (instr.source cpu).toNat = address := by
  have one : ∀ e : RvmEvent, e.offset? = some (instr.source cpu) →
      (instr.source cpu).toNat % 2 = 0 →
      ((∃ e' ∈ [e], ∃ offset, e'.offset? = some offset ∧ offset.toNat = address) ↔
        (instr.source cpu).toNat % 2 = 0 ∧ (instr.source cpu).toNat = address) := by
    intro e access even
    simp only [List.mem_singleton, exists_eq_left, access, Option.some.injEq, exists_eq_left', even,
      true_and]
  cases h with
  | loaded even => exact one _ rfl even
  | stored even => exact one _ rfl even
  | loadFault fault | storeFault fault =>
    refine iff_of_false ?_ fun h => odd_of_accessFault fault h.1
    rintro ⟨e, he, offset, access, _⟩
    cases List.mem_singleton.mp he
    cases access
  | computed writes => rcases memory with rfl | rfl <;> cases writes
  | dividedByZero divides => rcases memory with rfl | rfl <;> simp at divides
  | passed jump => rcases memory with rfl | rfl <;> simp at jump
  | jumpFault taken | jumped taken => rcases memory with rfl | rfl <;> cases taken
  | _ => rcases memory with h | h <;> cases h

/-- A LOAD or STORE with a label in brackets. -/
def UsesAddress (instr : RsmInstr) (name : RsmIdent) : Prop :=
  (∃ r, instr = ⟨.load, .reg r, .mem (.label name)⟩) ∨
    ∃ r, instr = ⟨.store, .mem (.label name), .reg r⟩

/-- The word of a LOAD or STORE with a label in brackets accesses the label's index modulo 256. -/
theorem accesses_iff {op : RvmOpcode} (memory : op = .load ∨ op = .store) (cpu : RvmCpu)
    (mem : RvmMemory) (r : RvmReg) (a : Word) (address : Nat) :
    Accesses cpu mem (rvmEncode op r .immOrAddr (BitVec.ofInt 8 a.toNat)) address ↔
      a.toNat % 2 = 0 ∧ a.toNat % 256 = address := by
  have decoded := rvmDecode_rvmEncode op r .immOrAddr (BitVec.ofInt 8 a.toNat)
  have source :
      ((rvmDecode (rvmEncode op r .immOrAddr (BitVec.ofInt 8 a.toNat))).source cpu).toNat =
        a.toNat % 256 := by
    rw [decoded]
    show ((BitVec.ofInt 8 a.toNat).setWidth 16).toNat = _
    rw [BitVec.toNat_setWidth, BitVec.toNat_ofInt]
    omega
  have opcode :
      (rvmDecode (rvmEncode op r .immOrAddr (BitVec.ofInt 8 a.toNat))).opcode = op.code := by
    rw [decoded]
  unfold Accesses
  rw [rvmCpuExecute_eq cpu mem opcode, (handler_outcome cpu mem _ op).accesses memory, source]
  omega

/-- **Labels in brackets.** In a program of at most 0x3FFF instructions, the word of a LOAD or STORE
with a label in brackets accesses the byte address of the place the label marks, where a jump to
the label in reach lands, if and only if the label marks the first instruction. -/
theorem label_in_brackets {program : RsmProgram} (small : program.instrs.items.length ≤ 0x3FFF)
    {name : RsmIdent} {a : Word} (defined : program.address? name = some a) {i : Nat}
    {instr : RsmInstr} (uses : UsesAddress instr name) {w : Word}
    (encoded : (rsmEncodeInstr program instr i).val = w.toNat) :
    (∀ cpu mem, Accesses cpu mem w (2 * a.toNat) ↔ a = 0) ∧
    ∀ j opr2, program.instrs.items[j]? = some ⟨.jmp, .label name, opr2⟩ → Reaches j a →
      ∀ w' : Word, (rsmEncodeInstr program ⟨.jmp, .label name, opr2⟩ j).val = w'.toNat →
        JumpLands .jmp w' j a := by
  have size := a.isLt
  have zero : a = 0 ↔ a.toNat = 0 := BitVec.toNat_inj.symm
  refine ⟨fun cpu mem => ?_, fun j opr2 at_ reaches w' encoded' => ?_⟩
  · have word : ∀ op r, (rsmEncodeInstr program instr i).val =
        (RsmMem.label name).encoded program op r →
        w = rvmEncode op r .immOrAddr (BitVec.ofInt 8 a.toNat) := by
      intro op r value
      rw [RsmMem.encoded, RsmMem.operand?, defined] at value
      exact word_unique encoded value
    rcases uses with ⟨r, rfl⟩ | ⟨r, rfl⟩
    · rw [word .load r (encode_load program i r _), accesses_iff (.inl rfl), zero]
      omega
    · rw [word .store r (encode_store program i r _), accesses_iff (.inr rfl), zero]
      omega
  · exact label_jump_lands small at_ rfl defined reaches encoded'

/-- The source `a:LOAD rv0,[a]`, parsed. -/
def loadFirstProgram : RsmProgram :=
  { instrs := ⟨[⟨.load, .reg 0, .mem (.label labelA)⟩], 1024, 1024⟩
    labels := ⟨[⟨labelA, 0⟩], 1024, 1024⟩ }

theorem label_in_brackets_first :
    (∀ cpu mem, Accesses cpu mem (rvmLoadAddr 0 0) 0 ↔ (0 : Word) = 0) ∧
    ∀ j opr2, loadFirstProgram.instrs.items[j]? = some ⟨.jmp, .label labelA, opr2⟩ → Reaches j 0 →
      ∀ w' : Word, (rsmEncodeInstr loadFirstProgram ⟨.jmp, .label labelA, opr2⟩ j).val = w'.toNat →
        JumpLands .jmp w' j 0 :=
  @label_in_brackets loadFirstProgram (by decide) labelA 0 rfl 0
    ⟨.load, .reg 0, .mem (.label labelA)⟩ (.inl ⟨0, rfl⟩) (rvmLoadAddr 0 0) (by decide)

/-- The source `RET`, newline, `a:LOAD rv0,[a]`. -/
def loadSecondSource : List Byte :=
  ['R', 'E', 'T', '\n',
    'a', ':', 'L', 'O', 'A', 'D', ' ', 'r', 'v', '0', ',', '[', 'a', ']'].map chr

def loadSecondProgram : RsmProgram :=
  { instrs := ⟨[⟨.ret, .none, .none⟩, ⟨.load, .reg 0, .mem (.label labelA)⟩], 1024, 1024⟩
    labels := ⟨[⟨labelA, 1⟩], 1024, 1024⟩ }

/-- The second instruction is at byte address 2, and a LOAD from its label does not go there. -/
theorem label_in_brackets_second : ∃ program, Parses (fun _ => true) loadSecondSource program ∧
    (rsmEmitBinary .working program []).val = (0, [0x00, 0xF0, 0x01, 0x10]) ∧
    program.address? labelA = some 1 ∧
    ¬ ∀ w : Word, (rsmEncodeInstr program ⟨.load, .reg 0, .mem (.label labelA)⟩ 1).val = w.toNat →
      ∀ cpu mem, Accesses cpu mem w (2 * 1) := by
  refine ⟨loadSecondProgram, by unfold Parses; decide, by decide, by decide, fun all => ?_⟩
  have accessed := all (rvmLoadAddr 0 1) (by decide) freshVm.cpu freshVm.mem
  exact absurd ((accesses_iff (.inl rfl) freshVm.cpu freshVm.mem 0 1 _).mp accessed).1 (by decide)

end RocketVm
