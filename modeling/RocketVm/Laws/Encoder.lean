import RocketVm.Asm.Encoder
import RocketVm.Asm.Parser
import RocketVm.Language
import RocketVm.Laws.Isa
import RocketVm.Laws.Lexer

/-!
# What the encoder returns

`accepted_shape` lists the shapes of the instructions that pass the parser's operand check, and
for each shape there is one lemma with the word the encoder returns for it. `HasWord` are all the
instructions that there is a word for (`encode_error_iff`).
-/

namespace RocketVm

open Lib

/-! ## Label lookup -/

/-- The table has an entry with the bytes of the name. -/
def RsmProgram.Defines (program : RsmProgram) (name : RsmIdent) : Prop :=
  ∃ label ∈ program.labels.items, label.name.bytes = name.bytes

/-- No identifier character is NUL. -/
theorem isIdentChar_ne_zero {ch : Byte} (h : isIdentChar ch = true) : ch ≠ 0 := by
  rintro rfl
  exact absurd h (by decide)

/-- On slices of one length without a NUL, `strncmp` answers zero for equal slices alone. -/
theorem strncmp_eq_zero {as bs : List Byte} (length : as.length = bs.length)
    (noNul : ∀ a ∈ as, a ≠ 0) : strncmp as bs bs.length = 0 ↔ as = bs := by
  induction as generalizing bs with
  | nil =>
    cases bs with
    | nil => exact iff_of_true rfl rfl
    | cons b bs => cases length
  | cons a as ih =>
    cases bs with
    | nil => cases length
    | cons b bs =>
      have rest := ih (Nat.succ.inj length) fun c hc => noNul c (List.mem_cons_of_mem a hc)
      have head : a ≠ 0 := noNul a List.mem_cons_self
      rw [List.length_cons, strncmp, List.cons.injEq]
      split
      · next differ =>
        refine iff_of_false (fun zero => differ (BitVec.eq_of_toNat_eq ?_)) fun h => differ h.1
        omega
      · next same =>
        rw [rest]
        exact ⟨fun h => ⟨Decidable.not_not.mp same, h⟩, fun h => h.2⟩

theorem findLabelAddress_eq (name : RsmIdent) (labels : List RsmLabel) :
    findLabelAddress name labels =
      ((labels.find? fun label => decide (label.name = name)).map fun label =>
        (label.address.toNat : Int)).getD (-1) := by
  induction labels with
  | nil => rfl
  | cons label labels ih =>
    have noNul : ∀ a ∈ label.name.bytes, a ≠ 0 := fun a ha =>
      isIdentChar_ne_zero (List.all_eq_true.mp label.name.chars a ha)
    rw [findLabelAddress, List.find?_cons]
    by_cases same : label.name = name
    · rw [if_pos ⟨by rw [same], (strncmp_eq_zero (by rw [same]) noNul).mpr (by rw [same])⟩]
      simp only [same, decide_true, Option.map_some, Option.getD_some]
    · have differ : ¬ (label.name.bytes.length = name.bytes.length ∧
          strncmp label.name.bytes name.bytes name.bytes.length = 0) := fun ⟨length, zero⟩ =>
        same ((RsmIdent.mk.injEq ..).mpr ((strncmp_eq_zero length noNul).mp zero))
      rw [if_neg differ, ih]
      simp only [same, decide_false]

/-- The lookup finds the address of the first label of the name, and -1 when there is none. -/
theorem rsmProgramFindLabelAddress_eq (program : RsmProgram) (name : RsmIdent) :
    rsmProgramFindLabelAddress program name =
      ((program.address? name).map fun a => (a.toNat : Int)).getD (-1) := by
  rw [rsmProgramFindLabelAddress, findLabelAddress_eq, RsmProgram.address?, Option.map_map]
  rfl

theorem rsmProgramFindLabelAddress_some {program : RsmProgram} {name : RsmIdent} {a : Word}
    (defined : program.address? name = some a) :
    rsmProgramFindLabelAddress program name = a.toNat := by
  rw [rsmProgramFindLabelAddress_eq, defined]
  rfl

theorem rsmProgramFindLabelAddress_none {program : RsmProgram} {name : RsmIdent}
    (undefined : program.address? name = none) :
    rsmProgramFindLabelAddress program name = -1 := by
  rw [rsmProgramFindLabelAddress_eq, undefined]
  rfl

theorem defines_iff_isSome (program : RsmProgram) (name : RsmIdent) :
    program.Defines name ↔ (program.address? name).isSome = true := by
  rw [RsmProgram.address?, Option.isSome_map, List.find?_isSome]
  refine exists_congr fun label => and_congr_right fun _ => ?_
  rw [decide_eq_true_eq, RsmIdent.bytes_injective.eq_iff]

theorem defines_iff (program : RsmProgram) (name : RsmIdent) :
    program.Defines name ↔ ∃ a, program.address? name = some a := by
  rw [defines_iff_isSome, Option.isSome_iff_exists]

theorem undefined_iff (program : RsmProgram) (name : RsmIdent) :
    ¬ program.Defines name ↔ program.address? name = none := by
  rw [defines_iff_isSome, Option.not_isSome_iff_eq_none]

/-- The resolver accepts a program when the labels among its operands are defined. -/
theorem resolveLabels_zero {program : RsmProgram} {instrs : List RsmInstr} :
    (resolveLabels program instrs).val = 0 ↔ ∀ instr ∈ instrs,
      labelUndefined program instr.opr1 = false ∧ labelUndefined program instr.opr2 = false := by
  induction instrs with
  | nil => exact iff_of_true rfl (by simp)
  | cons instr instrs ih =>
    rw [resolveLabels, List.forall_mem_cons, ← ih]
    cases first : labelUndefined program instr.opr1 with
    | true => exact iff_of_false (show ¬ (-1 : Int) = 0 by decide) (by simp)
    | false =>
      cases second : labelUndefined program instr.opr2 with
      | true => exact iff_of_false (show ¬ (-1 : Int) = 0 by decide) (by simp)
      | false => simp

theorem labelUndefined_label (program : RsmProgram) (name : RsmIdent) :
    labelUndefined program (.label name) = false ↔ (program.address? name).isSome = true := by
  rw [labelUndefined]
  cases h : program.address? name with
  | none =>
    rw [rsmProgramFindLabelAddress_none h]
    decide
  | some a =>
    rw [rsmProgramFindLabelAddress_some h, decide_eq_false_iff_not]
    exact iff_of_true (by omega) rfl

/-! ## Shapes -/

/-- The shapes of the instructions that pass the operand check. -/
inductive Shape : RsmInstr → Prop
  | sourceImm {op rvd v} (takes : op.takesSource = true) : Shape ⟨op, .reg rvd, .imm v⟩
  | sourceReg {op rvd rvs} (takes : op.takesSource = true) : Shape ⟨op, .reg rvd, .reg rvs⟩
  | load {rvd mem} : Shape ⟨.load, .reg rvd, .mem mem⟩
  | store {mem rvs} : Shape ⟨.store, .mem mem, .reg rvs⟩
  | toLabel {op name opr2} (transfers : op.transfers = true) : Shape ⟨op, .label name, opr2⟩
  | toReg {op r opr2} (transfers : op.transfers = true) : Shape ⟨op, .reg r, opr2⟩
  | toImm {op v opr2} (transfers : op.transfers = true) : Shape ⟨op, .imm v, opr2⟩
  | ret : Shape ⟨.ret, .none, .none⟩

/-- The opcodes by what they take. -/
theorem RvmOpcode.kinds (op : RvmOpcode) :
    op.takesSource = true ∨ op = .load ∨ op = .store ∨ op.transfers = true ∨ op = .ret := by
  cases op <;> decide

theorem accepted_shape {instr : RsmInstr} (h : operandError instr = none) : Shape instr := by
  obtain ⟨op, opr1, opr2⟩ := instr
  have source : op.takesSource = true → opr1.isReg = true → (opr2.isReg || opr2.isImm) = true →
      Shape ⟨op, opr1, opr2⟩ := by
    intro takes reg source
    cases opr1 <;> cases reg
    cases opr2 <;> first | exact .sourceReg takes | exact .sourceImm takes | cases source
  have target : op.transfers = true →
      (opr1.isLabel || opr1.isReg || opr1.isImm) = true → Shape ⟨op, opr1, opr2⟩ := by
    intro transfers shape
    cases opr1 <;>
      first
      | exact .toLabel transfers
      | exact .toReg transfers
      | exact .toImm transfers
      | cases shape
  cases op with
  | ret =>
    simp only [operandError, ite_eq_right_iff, reduceCtorEq, imp_false, not_or, ne_eq,
      Decidable.not_not] at h
    obtain ⟨rfl, rfl⟩ := h
    exact .ret
  | load =>
    simp only [operandError, ite_eq_right_iff, reduceCtorEq, imp_false] at h
    cases opr1 <;> cases opr2 <;> first | exact .load | exact absurd rfl h
  | store =>
    simp only [operandError, ite_eq_right_iff, reduceCtorEq, imp_false] at h
    cases opr1 <;> cases opr2 <;> first | exact .store | exact absurd rfl h
  | mov =>
    cases reg : opr1.isReg <;> cases src : opr2.isReg || opr2.isImm <;>
      simp only [operandError, reg, src, Bool.not_true, Bool.not_false, Bool.or_true, Bool.or_false,
        ↓reduceIte, reduceCtorEq] at h
    exact source rfl reg src
  | jmp | jz | jnz | call =>
    cases shape : opr1.isLabel || opr1.isReg || opr1.isImm with
    | true => exact target rfl shape
    | false =>
      simp only [operandError, shape, Bool.not_false, ↓reduceIte] at h
      split at h <;> cases h
  | _ =>
    cases reg : opr1.isReg <;> cases src : opr2.isReg || opr2.isImm <;>
      simp only [operandError, reg, src, Bool.not_true, Bool.not_false, ↓reduceIte, reduceCtorEq,
        Bool.false_eq_true] at h
    exact source rfl reg src

/-! ## Words -/

/-- The mode and operand byte that a memory operand is encoded with. -/
def RsmMem.operand? (program : RsmProgram) : RsmMem → Option (RvmMode × Byte)
  | .imm v => some (.immOrAddr, v.setWidth 8)
  | .reg raddr => some (.reg, RvmReg.toByte raddr)
  | .label name => (program.address? name).map fun a => (.immOrAddr, BitVec.ofInt 8 a.toNat)
  | .none => Option.none

/-- What the encoder returns for a LOAD or STORE with a memory operand. -/
def RsmMem.encoded (program : RsmProgram) (op : RvmOpcode) (r : RvmReg) (mem : RsmMem) : Int :=
  ((mem.operand? program).map fun o => ((rvmEncode op r o.1 o.2).toNat : Int)).getD (-1)

/-- A return value is the number of one word at most. -/
theorem word_unique {ret : Int} {w w' : Word} (h : ret = w.toNat) (h' : ret = w'.toNat) : w = w' :=
  BitVec.eq_of_toNat_eq (Int.ofNat.inj (h.symm.trans h'))

section Encode

variable (program : RsmProgram) {op : RvmOpcode} (i : Nat)

theorem rsmEncodeInstr_val (instr : RsmInstr) :
    (rsmEncodeInstr program instr i).val = (encodeOpcode program instr i).val.getD (-1) := by
  rw [rsmEncodeInstr, Traced.val_bind]
  cases (encodeOpcode program instr i).val <;> rfl

theorem encode_sourceImm (takes : op.takesSource = true) (rvd : RvmReg) (v : SInt32) :
    (rsmEncodeInstr program ⟨op, .reg rvd, .imm v⟩ i).val =
      (rvmEncode op rvd .immOrAddr (v.setWidth 8)).toNat := by
  rw [rsmEncodeInstr_val]
  cases op <;> first | rfl | cases takes

theorem encode_sourceReg (takes : op.takesSource = true) (rvd rvs : RvmReg) :
    (rsmEncodeInstr program ⟨op, .reg rvd, .reg rvs⟩ i).val =
      (rvmEncode op rvd .reg (RvmReg.toByte rvs)).toNat := by
  rw [rsmEncodeInstr_val]
  cases op <;> first | rfl | cases takes

/-- What LOAD and STORE share: the register and the memory operand, in their own order. -/
private theorem encodeMem_val {addrOf : RvmReg → Byte → Word} {regOf : RvmReg → RvmReg → Word}
    (haddr : ∀ r b, addrOf r b = rvmEncode op r .immOrAddr b)
    (hreg : ∀ r r', regOf r r' = rvmEncode op r .reg (RvmReg.toByte r')) (r : RvmReg)
    (mem : RsmMem) :
    (encodeMem addrOf regOf program r mem).val.getD (-1) = mem.encoded program op r := by
  unfold RsmMem.encoded
  cases mem with
  | none => rfl
  | imm v => exact congrArg (fun w : Word => (w.toNat : Int)) (haddr r _)
  | reg raddr => exact congrArg (fun w : Word => (w.toNat : Int)) (hreg r raddr)
  | label name =>
    rw [encodeMem, RsmMem.operand?]
    cases defined : program.address? name with
    | none =>
      rw [rsmProgramFindLabelAddress_none defined]
      rfl
    | some a =>
      have nonneg : ¬ ((a.toNat : Int) < 0) := by omega
      rw [rsmProgramFindLabelAddress_some defined]
      simp only [nonneg, ↓reduceIte, Traced.val_pure, Option.getD_some, haddr, Option.map_some]

theorem encode_load (rvd : RvmReg) (mem : RsmMem) :
    (rsmEncodeInstr program ⟨.load, .reg rvd, .mem mem⟩ i).val =
      mem.encoded program .load rvd := by
  rw [rsmEncodeInstr_val]
  exact encodeMem_val program (fun _ _ => rfl) (fun _ _ => rfl) rvd mem

theorem encode_store (rvs : RvmReg) (mem : RsmMem) :
    (rsmEncodeInstr program ⟨.store, .mem mem, .reg rvs⟩ i).val =
      mem.encoded program .store rvs := by
  rw [rsmEncodeInstr_val]
  exact encodeMem_val program (fun _ _ => rfl) (fun _ _ => rfl) rvs mem

theorem encode_transfer (transfers : op.transfers = true) (opr1 opr2 : RsmOperand) :
    (rsmEncodeInstr program ⟨op, opr1, opr2⟩ i).val =
      (encodeTarget (ctrlImm op "") (ctrlReg op) program i opr1).val.getD (-1) := by
  rw [rsmEncodeInstr_val]
  cases op <;> cases transfers <;> cases opr1 <;> first | rfl | skip
  all_goals
    show (encodeTarget _ _ _ _ _).val.getD (-1) = _
    simp only [encodeTarget, Traced.val_bind]
    split <;> rfl

/-- The distance of a label, as `rsm_resolve_label` returns it. -/
theorem rsmResolveLabel_val {name : RsmIdent} {a : Word}
    (defined : program.address? name = some a) :
    (rsmResolveLabel program name i).val = ((a.toNat : Int) - intOfSize i - 1) * 2 := by
  have nonneg : ¬ ((a.toNat : Int) < 0) := by omega
  rw [rsmResolveLabel, rsmProgramFindLabelAddress_some defined]
  simp only [nonneg, ↓reduceIte, Traced.val_bind, Traced.val_pure]

theorem rsmResolveLabel_missing {name : RsmIdent} (undefined : program.address? name = none) :
    (rsmResolveLabel program name i).val = -1 := by
  rw [rsmResolveLabel, rsmProgramFindLabelAddress_none undefined]
  rfl

/-- A defined label is encoded by its distance, cut to 16 bits. The distance is even, and so is
never mistaken for an error. -/
theorem encode_toLabel (transfers : op.transfers = true) {name : RsmIdent} {a : Word}
    (defined : program.address? name = some a) (opr2 : RsmOperand) :
    (rsmEncodeInstr program ⟨op, .label name, opr2⟩ i).val =
      (ctrlImm op "" (BitVec.ofInt 16 (((a.toNat : Int) - intOfSize i - 1) * 2))).val.toNat := by
  have even : ¬ (((a.toNat : Int) - intOfSize i - 1) * 2 = -1) := by omega
  rw [encode_transfer program i transfers]
  simp only [encodeTarget, Traced.val_bind, rsmResolveLabel_val program i defined, even, ↓reduceIte,
    Traced.val_pure, Option.getD_some]

theorem encode_toReg (transfers : op.transfers = true) (r : RvmReg) (opr2 : RsmOperand) :
    (rsmEncodeInstr program ⟨op, .reg r, opr2⟩ i).val = (ctrlReg op r).toNat := by
  rw [encode_transfer program i transfers]
  rfl

theorem encode_toImm (transfers : op.transfers = true) (v : SInt32) (opr2 : RsmOperand) :
    (rsmEncodeInstr program ⟨op, .imm v, opr2⟩ i).val = -1 := by
  rw [encode_transfer program i transfers]
  rfl

theorem encode_ret (opr1 opr2 : RsmOperand) :
    (rsmEncodeInstr program ⟨.ret, opr1, opr2⟩ i).val = rvmRet.toNat := rfl

end Encode

/-! ## Which instructions have a word -/

/-- A memory operand with something between the brackets, and a defined label if it is one. -/
def RsmMem.Given (program : RsmProgram) : RsmMem → Prop
  | .none => False
  | .label name => program.Defines name
  | _ => True

/-- The instructions that there are words for. -/
inductive HasWord (program : RsmProgram) : RsmInstr → Prop
  | sourceImm {op rvd v} (takes : op.takesSource = true) : HasWord program ⟨op, .reg rvd, .imm v⟩
  | sourceReg {op rvd rvs} (takes : op.takesSource = true) :
    HasWord program ⟨op, .reg rvd, .reg rvs⟩
  | load {rvd mem} (given : mem.Given program) : HasWord program ⟨.load, .reg rvd, .mem mem⟩
  | store {mem rvs} (given : mem.Given program) : HasWord program ⟨.store, .mem mem, .reg rvs⟩
  | toLabel {op name opr2} (transfers : op.transfers = true) (defined : program.Defines name) :
    HasWord program ⟨op, .label name, opr2⟩
  | toReg {op r opr2} (transfers : op.transfers = true) : HasWord program ⟨op, .reg r, opr2⟩
  | ret {opr1 opr2} : HasWord program ⟨.ret, opr1, opr2⟩

theorem mem_encoded_given {program : RsmProgram} (op : RvmOpcode) (r : RvmReg) {mem : RsmMem}
    (given : mem.Given program) : ∃ w : Word, mem.encoded program op r = w.toNat := by
  cases mem with
  | none => exact given.elim
  | imm | reg => exact ⟨_, rfl⟩
  | label name =>
    obtain ⟨a, found⟩ := (defines_iff program name).mp given
    rw [RsmMem.encoded, RsmMem.operand?, found]
    exact ⟨_, rfl⟩

theorem mem_encoded_missing {program : RsmProgram} (op : RvmOpcode) (r : RvmReg) {mem : RsmMem}
    (missing : ¬ mem.Given program) : mem.encoded program op r = -1 := by
  cases mem with
  | none => rfl
  | imm | reg => exact absurd trivial missing
  | label name =>
    rw [RsmMem.encoded, RsmMem.operand?, (undefined_iff program name).mp missing]
    rfl

/-- An instruction that has a word is encoded. -/
theorem HasWord.encoded {program : RsmProgram} {instr : RsmInstr} (has : HasWord program instr)
    (i : Nat) : ∃ w : Word, (rsmEncodeInstr program instr i).val = w.toNat := by
  cases has with
  | sourceImm takes => exact ⟨_, encode_sourceImm program i takes _ _⟩
  | sourceReg takes => exact ⟨_, encode_sourceReg program i takes _ _⟩
  | load given =>
    rw [encode_load]
    exact mem_encoded_given .load _ given
  | store given =>
    rw [encode_store]
    exact mem_encoded_given .store _ given
  | @toLabel op name opr2 transfers defined =>
    obtain ⟨a, found⟩ := (defines_iff program name).mp defined
    exact ⟨_, encode_toLabel program i transfers found opr2⟩
  | toReg transfers => exact ⟨_, encode_toReg program i transfers _ _⟩
  | ret => exact ⟨_, encode_ret program i _ _⟩

/-- A case of the `switch` with a destination register and a source breaks for other operands. -/
theorem encodeSource_none {imm : RvmReg → Byte → Word} {reg : RvmReg → RvmReg → Word}
    {opr1 opr2 : RsmOperand} (noImm : ∀ rvd v, ¬ (opr1 = .reg rvd ∧ opr2 = .imm v))
    (noReg : ∀ rvd rvs, ¬ (opr1 = .reg rvd ∧ opr2 = .reg rvs)) :
    encodeSource imm reg opr1 opr2 = none := by
  unfold encodeSource
  split
  · next rvd v => exact absurd ⟨rfl, rfl⟩ (noImm rvd v)
  · next rvd rvs => exact absurd ⟨rfl, rfl⟩ (noReg rvd rvs)
  · rfl

/-- Of any other instruction the encoder makes an error. -/
theorem encode_missing {program : RsmProgram} {instr : RsmInstr}
    (missing : ¬ HasWord program instr) (i : Nat) : (rsmEncodeInstr program instr i).val = -1 := by
  obtain ⟨op, opr1, opr2⟩ := instr
  have source : op.takesSource = true → ∀ imm reg, encodeSource imm reg opr1 opr2 = none := by
    intro takes imm reg
    refine encodeSource_none (fun rvd v => ?_) fun rvd rvs => ?_
    · rintro ⟨rfl, rfl⟩
      exact missing (.sourceImm takes)
    · rintro ⟨rfl, rfl⟩
      exact missing (.sourceReg takes)
  have target : op.transfers = true → (rsmEncodeInstr program ⟨op, opr1, opr2⟩ i).val = -1 := by
    intro transfers
    rw [encode_transfer program i transfers]
    cases opr1 with
    | label name =>
      have undefined := (undefined_iff program name).mp fun defined =>
        missing (.toLabel transfers defined)
      rw [encodeTarget, Traced.val_bind, rsmResolveLabel_missing program i undefined]
      rfl
    | reg r => exact absurd (.toReg transfers) missing
    | none | imm | mem => rfl
  cases op with
  | load =>
    rw [rsmEncodeInstr_val]
    cases opr1 <;> first | rfl | skip
    cases opr2 <;> first | rfl | skip
    rw [← rsmEncodeInstr_val, encode_load]
    exact mem_encoded_missing .load _ fun given => missing (.load given)
  | store =>
    rw [rsmEncodeInstr_val]
    cases opr2 <;> cases opr1 <;> first | rfl | skip
    rw [← rsmEncodeInstr_val, encode_store]
    exact mem_encoded_missing .store _ fun given => missing (.store given)
  | jmp | jz | jnz | call => exact target rfl
  | ret => exact absurd .ret missing
  | _ =>
    rw [rsmEncodeInstr_val, encodeOpcode, Traced.val_pure, source rfl]
    rfl

theorem encode_error_iff {program : RsmProgram} {instr : RsmInstr} (i : Nat) :
    (rsmEncodeInstr program instr i).val = -1 ↔ ¬ HasWord program instr := by
  refine ⟨fun error has => ?_, fun missing => encode_missing missing i⟩
  obtain ⟨w, encoded⟩ := has.encoded i
  omega

end RocketVm
