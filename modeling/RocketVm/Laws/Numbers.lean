import RocketVm.Laws.Encoder
import RocketVm.Laws.Parser

/-!
# Registers and numbers in words

A word of an instruction with register and numeric operands decodes to the instruction when its
number fits the operand byte. The encoder cuts every other number to its low byte.
-/

namespace RocketVm

open Lib

/-! ## Registers and numbers -/

/-- The register an instruction other than a control-flow one loads, stores or computes into. -/
def RsmInstr.valueReg (instr : RsmInstr) : Option RvmReg :=
  match instr.opcode, instr.opr1, instr.opr2 with
  | .store, _, .reg r => some r
  | .store, _, _ => none
  | _, .reg r, _ => some r
  | _, _, _ => none

/-- The mode and the number that an operand has for the machine, if labels play no part in it. -/
def RsmOperand.number : RsmOperand → Option (RvmMode × Int)
  | .imm v | .mem (.imm v) => some (.immOrAddr, v.toInt)
  | .reg r | .mem (.reg r) => some (.reg, r.val)
  | _ => Option.none

/-- The operand that goes into the operand byte, as its mode and its number. -/
def RsmInstr.number (instr : RsmInstr) : Option (RvmMode × Int) :=
  match instr.opcode with
  | .store => instr.opr1.number
  | _ => instr.opr2.number

/-- The instruction has registers and numbers for operands, and is neither a jump nor a RET. -/
def RsmInstr.isNumeric (instr : RsmInstr) : Prop :=
  instr.opcode.transfers = false ∧ instr.opcode ≠ .ret ∧ instr.number.isSome = true

/-- The word decodes to the instruction. -/
structure Faithful (instr : RsmInstr) (w : Word) : Prop where
  opcode : (rvmDecode w).opcode = instr.opcode.code
  reg : instr.valueReg = some (rvmDecode w).reg
  operand : instr.number = some ((rvmDecode w).mode, ((rvmDecode w).operand.toNat : Int))

/-- The immediate or direct address of the instruction, if it has one, fits the operand byte. -/
def RsmInstr.FitsByte (instr : RsmInstr) : Prop :=
  ∀ v, instr.number = some (.immOrAddr, v) → 0 ≤ v ∧ v ≤ 255

/-- A cut to a byte keeps exactly the numbers of a byte. -/
theorem setWidth_eq_toInt (v : SInt32) :
    ((v.setWidth 8).toNat : Int) = v.toInt ↔ 0 ≤ v.toInt ∧ v.toInt ≤ 255 := by
  have signed := BitVec.toInt_eq_toNat_cond v
  have size := v.isLt
  rw [BitVec.toNat_setWidth]
  split at signed <;> omega

theorem RvmReg.toByte_toNat (r : RvmReg) : (RvmReg.toByte r).toNat = r.val := by
  have := r.isLt
  rw [RvmReg.toByte, BitVec.toNat_ofNat]
  omega

/-- The fields of a numeric instruction, and the word they are encoded in. -/
theorem encode_numeric (program : RsmProgram) {instr : RsmInstr} (i : Nat)
    (accepted : operandError instr = none) (numeric : instr.isNumeric) :
    ∃ reg mode n operand, instr.valueReg = some reg ∧ instr.number = some (mode, n) ∧
      (rsmEncodeInstr program instr i).val = (rvmEncode instr.opcode reg mode operand).toNat ∧
      ((operand.toNat : Int) = n ↔ (mode = .immOrAddr → 0 ≤ n ∧ n ≤ 255)) := by
  have imm : ∀ v : SInt32, ((v.setWidth 8).toNat : Int) = v.toInt ↔
      (RvmMode.immOrAddr = .immOrAddr → 0 ≤ v.toInt ∧ v.toInt ≤ 255) := fun v =>
    (setWidth_eq_toInt v).trans ⟨fun h _ => h, fun h => h rfl⟩
  have reg : ∀ r : RvmReg, ((RvmReg.toByte r).toNat : Int) = (r.val : Int) ↔
      (RvmMode.reg = .immOrAddr → 0 ≤ (r.val : Int) ∧ (r.val : Int) ≤ 255) := fun r =>
    iff_of_true (congrArg Int.ofNat (RvmReg.toByte_toNat r)) nofun
  obtain ⟨jump, ret, some⟩ := numeric
  cases accepted_shape accepted with
  | @sourceImm op rvd v takes =>
    have fields : RsmInstr.valueReg ⟨op, .reg rvd, .imm v⟩ = Option.some rvd ∧
        RsmInstr.number ⟨op, .reg rvd, .imm v⟩ = Option.some (.immOrAddr, v.toInt) := by
      cases op <;> first | exact ⟨rfl, rfl⟩ | cases takes
    exact ⟨rvd, .immOrAddr, v.toInt, v.setWidth 8, fields.1, fields.2,
      encode_sourceImm program i takes rvd v, imm v⟩
  | @sourceReg op rvd rvs takes =>
    have fields : RsmInstr.valueReg ⟨op, .reg rvd, .reg rvs⟩ = Option.some rvd ∧
        RsmInstr.number ⟨op, .reg rvd, .reg rvs⟩ = Option.some (.reg, (rvs.val : Int)) := by
      cases op <;> first | exact ⟨rfl, rfl⟩ | cases takes
    exact ⟨rvd, .reg, rvs.val, RvmReg.toByte rvs, fields.1, fields.2,
      encode_sourceReg program i takes rvd rvs, reg rvs⟩
  | @load rvd mem =>
    cases mem with
    | imm v => exact ⟨rvd, _, _, _, rfl, rfl, encode_load program i rvd (.imm v), imm v⟩
    | reg r => exact ⟨rvd, _, _, _, rfl, rfl, encode_load program i rvd (.reg r), reg r⟩
    | none | label => cases some
  | @store mem rvs =>
    cases mem with
    | imm v => exact ⟨rvs, _, _, _, rfl, rfl, encode_store program i rvs (.imm v), imm v⟩
    | reg r => exact ⟨rvs, _, _, _, rfl, rfl, encode_store program i rvs (.reg r), reg r⟩
    | none | label => cases some
  | toLabel transfers | toReg transfers | toImm transfers =>
    exact absurd (transfers.symm.trans jump) (by decide)
  | ret => exact absurd rfl ret

/-- The operand with a given mode and number. -/
def operandOf : RvmMode → Int → RsmOperand
  | .immOrAddr, n => .imm (BitVec.ofInt 32 n)
  | .reg, n => .reg (Fin.ofNat 8 n.toNat)

/-- The memory operand with a given mode and number. -/
def memOf : RvmMode → Int → RsmMem
  | .immOrAddr, n => .imm (BitVec.ofInt 32 n)
  | .reg, n => .reg (Fin.ofNat 8 n.toNat)

/-- The numeric instruction with given fields. -/
def numericInstr (op : RvmOpcode) (reg : RvmReg) (mode : RvmMode) (n : Int) : RsmInstr :=
  match op with
  | .load => ⟨.load, .reg reg, .mem (memOf mode n)⟩
  | .store => ⟨.store, .mem (memOf mode n), .reg reg⟩
  | op => ⟨op, .reg reg, operandOf mode n⟩

/-- A numeric instruction is determined by its opcode, its register and its number. -/
theorem numericInstr_eq {instr : RsmInstr} (accepted : operandError instr = none)
    {reg : RvmReg} {mode : RvmMode} {n : Int}
    (hreg : instr.valueReg = some reg) (hn : instr.number = some (mode, n))
    (numeric : instr.isNumeric) : instr = numericInstr instr.opcode reg mode n := by
  obtain ⟨jump, ret, _⟩ := numeric
  have back : ∀ r : RvmReg, Fin.ofNat 8 ((r.val : Int)).toNat = r := fun r =>
    Fin.ext (Nat.mod_eq_of_lt r.isLt)
  cases accepted_shape accepted with
  | @sourceImm op rvd v takes =>
    cases op <;> cases takes <;> cases hreg <;> cases hn <;>
      simp only [numericInstr, operandOf, BitVec.ofInt_toInt]
  | @sourceReg op rvd rvs takes =>
    cases op <;> cases takes <;> cases hreg <;> cases hn <;>
      simp only [numericInstr, operandOf, back]
  | @load rvd mem =>
    cases mem <;> cases hreg <;> cases hn <;>
      simp only [numericInstr, memOf, BitVec.ofInt_toInt, back]
  | @store mem rvs =>
    cases mem <;> cases hreg <;> cases hn <;>
      simp only [numericInstr, memOf, BitVec.ofInt_toInt, back]
  | toLabel transfers | toReg transfers | toImm transfers =>
    exact absurd (transfers.symm.trans jump) (by decide)
  | ret => exact absurd rfl ret

/-- The word of a numeric instruction, with what makes it faithful. -/
theorem faithful_iff (program : RsmProgram) {instr : RsmInstr} (i : Nat)
    (accepted : operandError instr = none) (numeric : instr.isNumeric) :
    ∃ w : Word, (rsmEncodeInstr program instr i).val = w.toNat ∧
      (Faithful instr w ↔ instr.FitsByte) := by
  obtain ⟨reg, mode, n, operand, hreg, hn, encoded, kept⟩ :=
    encode_numeric program i accepted numeric
  have decoded := rvmDecode_rvmEncode instr.opcode reg mode operand
  have fits : instr.FitsByte ↔ (mode = .immOrAddr → 0 ≤ n ∧ n ≤ 255) := by
    constructor
    · rintro fits rfl
      exact fits n hn
    · intro fits v hv
      rw [hn] at hv
      cases hv
      exact fits rfl
  refine ⟨_, encoded, ?_⟩
  rw [fits, ← kept]
  constructor
  · intro faithful
    have := hn.symm.trans faithful.operand
    rw [decoded] at this
    cases this
    rfl
  · intro same
    exact ⟨by rw [decoded], by rw [hreg, decoded], by rw [hn, decoded, same]⟩

/-- A faithful word tells its instruction. -/
theorem Faithful.instr_eq {instr : RsmInstr} {w : Word} (h : Faithful instr w)
    (accepted : operandError instr = none) (numeric : instr.isNumeric) :
    ∃ opcode, opcode.code = (rvmDecode w).opcode ∧ instr = numericInstr opcode (rvmDecode w).reg
      (rvmDecode w).mode (rvmDecode w).operand.toNat :=
  ⟨instr.opcode, h.opcode.symm, numericInstr_eq accepted h.reg h.operand numeric⟩

theorem RvmOpcode.code_inj {op op' : RvmOpcode} (h : op.code = op'.code) : op = op' := by
  have := congrArg RvmOpcode.ofCode? h
  rw [op.ofCode?_code, op'.ofCode?_code] at this
  exact Option.some.inj this

/-- **Registers and numbers.** The word of an accepted instruction with register and numeric
operands decodes to the instruction if and only if its immediate or direct address, if it has one,
is in 0..255. Two such instructions that are in range and share a word are one. -/
theorem encoding_faithful {realloc : Nat → Bool} {src : List Byte} {parsed : RsmProgram}
    (parses : Parses realloc src parsed) {instr : RsmInstr} (mem : instr ∈ parsed.instrs.items)
    (numeric : instr.isNumeric) (program : RsmProgram) (i : Nat) :
    ((∀ w : Word, (rsmEncodeInstr program instr i).val = w.toNat → Faithful instr w) ↔
      instr.FitsByte) ∧
    ∀ instr', operandError instr' = none → instr'.isNumeric → instr.FitsByte → instr'.FitsByte →
      ∀ program' i',
        (rsmEncodeInstr program instr i).val = (rsmEncodeInstr program' instr' i').val →
        instr = instr' := by
  have accepted := (parses.accepted instr mem).check
  obtain ⟨w, encoded, faithful⟩ := faithful_iff program i accepted numeric
  refine ⟨⟨fun all => faithful.mp (all w encoded), fun fits w' hw' => ?_⟩, ?_⟩
  · rw [word_unique hw' encoded]
    exact faithful.mpr fits
  · intro instr' accepted' numeric' fits fits' program' i' same
    obtain ⟨w', encoded', faithful'⟩ := faithful_iff program' i' accepted' numeric'
    obtain rfl : w' = w := word_unique encoded' (same.symm.trans encoded)
    obtain ⟨op, hop, eq⟩ := (faithful.mpr fits).instr_eq accepted numeric
    obtain ⟨op', hop', eq'⟩ := (faithful'.mpr fits').instr_eq accepted' numeric'
    rw [eq, eq', RvmOpcode.code_inj (hop.trans hop'.symm)]

/-- The source `MOV rv0,0x100`, and what the parser builds from it. -/
def movSource : List Byte :=
  ['M', 'O', 'V', ' ', 'r', 'v', '0', ',', '0', 'x', '1', '0', '0'].map chr

def movProgram : RsmProgram := ⟨⟨[⟨.mov, .reg 0, .imm 0x100⟩], 1024, 1024⟩, .create⟩

theorem mov_parses : Parses (fun _ => true) movSource movProgram := by
  unfold Parses
  decide

theorem encoding_faithful_mov :
    ((∀ w : Word, (rsmEncodeInstr movProgram ⟨.mov, .reg 0, .imm 0x100⟩ 0).val = w.toNat →
        Faithful ⟨.mov, .reg 0, .imm 0x100⟩ w) ↔
      RsmInstr.FitsByte ⟨.mov, .reg 0, .imm 0x100⟩) ∧
    ∀ instr', operandError instr' = none → instr'.isNumeric →
      RsmInstr.FitsByte ⟨.mov, .reg 0, .imm 0x100⟩ → instr'.FitsByte →
      ∀ program' i', (rsmEncodeInstr movProgram ⟨.mov, .reg 0, .imm 0x100⟩ 0).val =
        (rsmEncodeInstr program' instr' i').val → ⟨.mov, .reg 0, .imm 0x100⟩ = instr' :=
  encoding_faithful mov_parses List.mem_cons_self ⟨rfl, by decide, rfl⟩ movProgram 0

/-- The parser accepts `MOV rv0,0x100`, and the encoder turns it into the word of `MOV rv0,0`. -/
theorem mov_0x100_truncated : ∃ program, Parses (fun _ => true) movSource program ∧
    ∃ instr ∈ program.instrs.items, instr.isNumeric ∧
      ¬ ∀ w : Word, (rsmEncodeInstr program instr 0).val = w.toNat → Faithful instr w := by
  refine ⟨movProgram, mov_parses, ⟨.mov, .reg 0, .imm 0x100⟩, List.mem_cons_self,
    ⟨rfl, by decide, rfl⟩, fun all => ?_⟩
  exact absurd (all (rvmMovImm 0 0) (by decide)).operand (by decide)

end RocketVm
