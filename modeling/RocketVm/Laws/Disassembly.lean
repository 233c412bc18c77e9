import RocketVm.Laws.Dump
import RocketVm.Laws.Linking
import RocketVm.Laws.Numbers

/-!
# The images there are

Every list of labels and instructions is the program of some source text, and a source can put a
label at every index that fits. So the images of the assembler are known from their words alone:
each word is one that some instruction at its index has (`image_iff`).
-/

namespace RocketVm

open Lib

/-! ## A source for every program -/

namespace RsmItem

/-- The tokens of an item, with a newline after an instruction. -/
def lineTokens : RsmItem → List RsmTokenType
  | label name => [.ident name, .colon]
  | instr i => i.tokens ++ [.newline]

/-- The item can be written. -/
def Proper : RsmItem → Prop
  | label name => name.IsName
  | instr i => Accepted i ∧ i.Proper

theorem Proper.tokens {item : RsmItem} (proper : item.Proper) :
    ∀ t ∈ item.lineTokens, t.Proper := by
  intro t inside
  cases item with
  | label name =>
    rcases List.mem_cons.mp inside with rfl | colon
    · exact proper
    · cases List.mem_singleton.mp colon
      trivial
  | instr i =>
    rcases List.mem_append.mp inside with own | newline
    · exact proper.2 t own
    · cases List.mem_singleton.mp newline
      trivial

end RsmItem

theorem sentence_lineTokens {items : List RsmItem} (proper : ∀ item ∈ items, item.Proper) :
    Sentence Accepted (items.flatMap RsmItem.lineTokens) items := by
  induction items with
  | nil => exact .done
  | cons item items ih =>
    have rest := ih fun i mem => proper i (List.mem_cons_of_mem _ mem)
    rw [List.flatMap_cons]
    cases item with
    | label name => exact @Sentence.label Accepted _ _ name rest
    | instr i =>
      rw [RsmItem.lineTokens, List.append_assoc]
      exact .instr (proper _ List.mem_cons_self).1 (.inr ⟨_, rfl⟩) (.newline rest)

/-- Every list of items whose labels fit is the program of some source. -/
theorem exists_source {items : List RsmItem} (proper : ∀ item ∈ items, item.Proper)
    (fits : LabelsFit 0 items) : ∃ src program, Parses (fun _ => true) src program ∧
      Extends rsmProgramCreate items program := by
  have tokens : ∀ t ∈ items.flatMap RsmItem.lineTokens, t.Proper := by
    intro t inside
    obtain ⟨item, mem, own⟩ := List.mem_flatMap.mp inside
    exact (proper item mem).tokens t own
  obtain ⟨src, spells, _⟩ := exists_spelling tokens
  have sentence := sentence_lineTokens proper
  rw [← spells.sourceTokens] at sentence
  exact ⟨src, sentence.parses_of_fits fits⟩

/-! ## A label at every index -/

theorem isIdentChar_digitChar {d : Nat} (small : d < 10) : isIdentChar (digitChar d) = true := by
  interval_cases d <;> decide

/-- A name for each index: an underscore and the number. -/
def indexName (i : Nat) : RsmIdent where
  bytes := chr '_' :: printU i
  chars := by
    rw [List.all_cons, Bool.and_eq_true, List.all_eq_true]
    refine ⟨by decide, fun c mem => ?_⟩
    obtain ⟨d, digit, rfl⟩ := List.mem_map.mp mem
    exact isIdentChar_digitChar (lt_of_mem_numeral (by decide) digit)

theorem indexName_isName (i : Nat) : (indexName i).IsName := by
  have first : ∀ word : List Byte, word.head? ≠ some (chr '_') →
      (indexName i).bytes.map lowerCase ≠ word := by
    rintro word other rfl
    exact other rfl
  have letter : some (chr 'r') ≠ some (chr '_') := by decide
  refine ⟨⟨_, _, rfl, by decide⟩, fun op => first _ ?_, fun r => first _ letter⟩
  cases op <;> decide

theorem indexName_inj {i j : Nat} (same : indexName i = indexName j) : i = j := by
  have digits : printU i = printU j := (List.cons.inj (congrArg RsmIdent.bytes same)).2
  rw [← digitsValue_printU i, digits, digitsValue_printU]

/-- The label of an index, if its address fits. -/
def labelAt (i : Nat) : List RsmItem := if i ≤ UINT16_MAX then [.label (indexName i)] else []

/-- Instructions from an index on, with a label before each and at the end. -/
def labelled : Nat → List RsmInstr → List RsmItem
  | i, [] => labelAt i
  | i, instr :: instrs => labelAt i ++ .instr instr :: labelled (i + 1) instrs

theorem instrsOf_labelAt (i : Nat) : instrsOf (labelAt i) = [] := by
  unfold labelAt
  split <;> rfl

theorem instrsOf_labelled (i : Nat) (instrs : List RsmInstr) :
    instrsOf (labelled i instrs) = instrs := by
  induction instrs generalizing i with
  | nil => exact instrsOf_labelAt i
  | cons instr instrs ih =>
    rw [labelled, instrsOf_append, instrsOf_labelAt]
    exact congrArg (List.cons instr) (ih (i + 1))

theorem labelsFit_labelAt (i : Nat) : LabelsFit i (labelAt i) := by
  unfold labelAt
  split
  · next fits => exact LabelsFit.of_length fits
  · intro before name after split
    exact absurd split.symm (List.append_ne_nil_of_right_ne_nil before (List.cons_ne_nil _ _))

theorem labelsFit_labelled (i : Nat) (instrs : List RsmInstr) :
    LabelsFit i (labelled i instrs) := by
  induction instrs generalizing i with
  | nil => exact labelsFit_labelAt i
  | cons instr instrs ih =>
    refine (labelsFit_labelAt i).append ?_
    rw [instrsOf_labelAt]
    have none : LabelsFit i [.instr instr] := labelsFit_map_instr i [instr]
    exact none.append (ih (i + 1))

/-- The labels have the addresses they are named after. -/
theorem find_labelled {i a : Nat} {instrs : List RsmInstr} (low : i ≤ a)
    (high : a ≤ i + instrs.length) (fits : a ≤ UINT16_MAX) :
    (labelsOf i (labelled i instrs)).find? (fun label => decide (label.name = indexName a)) =
      some ⟨indexName a, BitVec.ofNat 16 a⟩ := by
  induction instrs generalizing i with
  | nil =>
    obtain rfl : i = a := Nat.le_antisymm low high
    rw [labelled, labelAt, if_pos fits]
    exact List.find?_cons_of_pos (decide_eq_true rfl)
  | cons instr instrs ih =>
    rw [labelled, labelAt, if_pos (Nat.le_trans low fits)]
    by_cases same : i = a
    · subst same
      exact List.find?_cons_of_pos (decide_eq_true rfl)
    · have other : ¬ decide (indexName i = indexName a) = true := fun named =>
        same (indexName_inj (of_decide_eq_true named))
      rw [List.length_cons] at high
      have later := ih (i := i + 1) (by omega) (by omega)
      show (RsmLabel.mk (indexName i) (BitVec.ofNat 16 i) ::
        labelsOf (i + 1) (labelled (i + 1) instrs)).find? _ = _
      rw [List.find?_cons_of_neg (by exact other)]
      exact later

/-- The program has a label at every index that has an address. -/
def HasLabels (program : RsmProgram) : Prop :=
  ∀ a ≤ program.instrs.items.length, a ≤ UINT16_MAX →
    program.address? (indexName a) = some (BitVec.ofNat 16 a)

/-- Every list of instructions is that of a source with a label at every index. -/
theorem exists_labelled_source {instrs : List RsmInstr}
    (accepted : ∀ instr ∈ instrs, Accepted instr) (proper : ∀ instr ∈ instrs, instr.Proper) :
    ∃ src program, Parses (fun _ => true) src program ∧ program.instrs.items = instrs ∧
      HasLabels program := by
  have written : ∀ i, ∀ item ∈ labelled i instrs, item.Proper := by
    have label : ∀ i, ∀ item ∈ labelAt i, item.Proper := by
      intro i item mem
      unfold labelAt at mem
      split at mem
      · cases List.mem_singleton.mp mem
        exact indexName_isName i
      · exact absurd mem List.not_mem_nil
    intro i
    induction instrs generalizing i with
    | nil => exact label i
    | cons instr instrs ih =>
      intro item mem
      rcases List.mem_append.mp mem with here | rest
      · exact label i item here
      · rcases List.mem_cons.mp rest with rfl | later
        · exact ⟨accepted instr List.mem_cons_self, proper instr List.mem_cons_self⟩
        · exact ih (fun i mem => accepted i (List.mem_cons_of_mem _ mem))
            (fun i mem => proper i (List.mem_cons_of_mem _ mem)) (i + 1) item later
  obtain ⟨src, program, parses, built⟩ := exists_source (written 0) (labelsFit_labelled 0 instrs)
  have items : program.instrs.items = instrs := built.instrs.trans (instrsOf_labelled 0 instrs)
  refine ⟨src, program, parses, items, fun a inside fits => ?_⟩
  have labels : program.labels.items = labelsOf 0 (labelled 0 instrs) := built.labels
  rw [items] at inside
  rw [RsmProgram.address?, labels, find_labelled (Nat.zero_le a) (by omega) fits]
  rfl

/-! ## Words -/

/-- What the operand bits of a word at index `i` of `n` are limited to, by its opcode: RET has none,
a register is one of eight, and a distance is the one to an index of the program, or behind its end,
cut down to the eleven bits of the field. Where it does not fit them the word is written all the
same, and leads somewhere else. -/
def WritableAs (n i : Nat) (w : Word) : RvmOpcode → Prop
  | .ret => w.toNat % 4096 = 0
  | .jmp | .jz | .jnz | .call =>
    if w.toNat / 2048 % 2 = 1 then w.toNat % 2048 < 8
    else ∃ a ≤ n, a ≤ UINT16_MAX ∧ (2 * ((a : Int) - i - 1)) % 2048 = w.toNat % 2048
  | _ => (rvmDecode w).mode = .reg → (rvmDecode w).operand.toNat < 8

/-- The word at index `i` of `n` can be written in the assembly language. -/
def Writable (n i : Nat) (w : Word) : Prop :=
  ∃ op : RvmOpcode, (rvmDecode w).opcode = op.code ∧ WritableAs n i w op

theorem writableAs_transfers {n i : Nat} {w : Word} {op : RvmOpcode}
    (transfers : op.transfers = true) : WritableAs n i w op ↔
      if w.toNat / 2048 % 2 = 1 then w.toNat % 2048 < 8
      else ∃ a ≤ n, a ≤ UINT16_MAX ∧ (2 * ((a : Int) - i - 1)) % 2048 = w.toNat % 2048 := by
  cases op <;> first | rfl | cases transfers

theorem writableAs_operand {n i : Nat} {w : Word} {op : RvmOpcode}
    (operand : op.takesSource = true ∨ op = .load ∨ op = .store) : WritableAs n i w op ↔
      ((rvmDecode w).mode = .reg → (rvmDecode w).operand.toNat < 8) := by
  rcases operand with takes | rfl | rfl
  · cases op <;> first | rfl | cases takes
  · rfl
  · rfl

/-- Encoding what was decoded. -/
theorem rvmEncode_rvmDecode {w : Word} {op : RvmOpcode} (opcode : (rvmDecode w).opcode = op.code) :
    rvmEncode op (rvmDecode w).reg (rvmDecode w).mode (rvmDecode w).operand = w := by
  have mode : (rvmDecode w).mode.code = (w >>> 8).toNat % 2 := RvmMode.ofBit_code _
  rw [BitVec.toNat_ushiftRight, Nat.shiftRight_eq_div_pow] at mode
  have high := rvmDecode_opcode w
  apply BitVec.eq_of_toNat_eq
  rw [rvmEncode_toNat, rvmDecode_reg, rvmDecode_operand, mode, ← opcode, high]
  omega

/-- The distance that the encoder writes for a label. -/
theorem distance_toNat (a i : Nat) :
    ((BitVec.ofInt 16 (((a : Int) - intOfSize i - 1) * 2)).toNat % 2048 : Nat) =
      (2 * ((a : Int) - i - 1)) % 2048 := by
  have index := intOfSize_mod i
  rw [BitVec.toNat_ofInt]
  omega

/-! ## From words to instructions -/

/-- The instruction at index `i` has the word, and its labels are defined. -/
structure Encodes (program : RsmProgram) (i : Nat) (instr : RsmInstr) (w : Word) : Prop where
  defined : labelUndefined program instr.opr1 = false ∧ labelUndefined program instr.opr2 = false
  word : (rsmEncodeInstr program instr i).val = w.toNat

/-- An instruction that the assembler makes the word of, in every program with labels. -/
def Has (n i : Nat) (w : Word) (instr : RsmInstr) : Prop :=
  Accepted instr ∧ instr.Proper ∧ ∀ program : RsmProgram, program.instrs.items.length = n →
    HasLabels program → Encodes program i instr w

theorem proper_of_operands {op : RvmOpcode} {opr1 opr2 : RsmOperand}
    (first : ∀ t ∈ opr1.tokens, t.Proper) (second : ∀ t ∈ opr2.tokens, t.Proper) :
    (⟨op, opr1, opr2⟩ : RsmInstr).Proper := by
  intro t mem
  rcases List.mem_cons.mp mem with rfl | operand
  · trivial
  · unfold operandTokens at operand
    split at operand
    · exact first t operand
    · rcases List.mem_append.mp operand with own | rest
      · exact first t own
      · rcases List.mem_cons.mp rest with rfl | own
        · trivial
        · exact second t own

/-- The operand byte of a word is that of a number or a register of the source. -/
theorem operand_cases {w : Word}
    (small : (rvmDecode w).mode = .reg → (rvmDecode w).operand.toNat < 8) :
    (∃ v : SInt32, (rvmDecode w).mode = .immOrAddr ∧ (rvmDecode w).operand = v.setWidth 8 ∧
        v.toNat < 0x80000000) ∨
      ∃ r, (rvmDecode w).mode = .reg ∧ (rvmDecode w).operand = RvmReg.toByte r := by
  cases mode : (rvmDecode w).mode with
  | immOrAddr =>
    have byte := (rvmDecode w).operand.isLt
    refine .inl ⟨(rvmDecode w).operand.setWidth 32, rfl, ?_, ?_⟩
    · rw [BitVec.setWidth_setWidth_of_le _ (by decide), BitVec.setWidth_eq]
    · rw [BitVec.toNat_setWidth]
      omega
  | reg =>
    refine .inr ⟨⟨_, small mode⟩, rfl, BitVec.eq_of_toNat_eq ?_⟩
    rw [RvmReg.toByte_toNat]

theorem proper_reg (r : RvmReg) : ∀ t ∈ (RsmOperand.reg r).tokens, t.Proper := fun t mem => by
  cases List.mem_singleton.mp mem
  trivial

/-- The tokens of an operand in brackets. -/
theorem proper_brackets {mem : RsmMem} (inside : ∀ t ∈ mem.tokens, t.Proper) :
    ∀ t ∈ (RsmOperand.mem mem).tokens, t.Proper := by
  intro t member
  rcases List.mem_cons.mp member with rfl | rest
  · trivial
  · rcases List.mem_append.mp rest with own | close
    · exact inside t own
    · cases List.mem_singleton.mp close
      trivial

/-- A LOAD or STORE for a word, given its operand in brackets. -/
theorem exists_access {n i : Nat} {w : Word} {op : RvmOpcode} (access : op = .load ∨ op = .store)
    {mem : RsmMem} (given : mem ≠ .none) (proper : ∀ t ∈ mem.tokens, t.Proper)
    (unnamed : ∀ program, labelUndefined program (.mem mem) = false)
    (encoded : ∀ program, mem.encoded program op (rvmDecode w).reg = w.toNat) :
    ∃ instr, Has n i w instr := by
  rcases access with rfl | rfl
  · refine ⟨_, (@Documented.load (rvmDecode w).reg _ given).accepted,
      proper_of_operands (proper_reg _) (proper_brackets proper), fun program _ _ =>
        ⟨⟨rfl, unnamed program⟩, (encode_load program i _ _).trans (encoded program)⟩⟩
  · refine ⟨_, (@Documented.store _ (rvmDecode w).reg given).accepted,
      proper_of_operands (proper_brackets proper) (proper_reg _), fun program _ _ =>
        ⟨⟨unnamed program, rfl⟩, (encode_store program i _ _).trans (encoded program)⟩⟩

/-- An instruction for a word of an opcode with an operand byte. -/
theorem exists_instr_operand {n i : Nat} {w : Word} {op : RvmOpcode}
    (opcode : (rvmDecode w).opcode = op.code)
    (operand : op.takesSource = true ∨ op = .load ∨ op = .store)
    (small : (rvmDecode w).mode = .reg → (rvmDecode w).operand.toNat < 8) :
    ∃ instr, Has n i w instr := by
  have word := rvmEncode_rvmDecode opcode
  rcases operand_cases small with ⟨v, mode, byte, few⟩ | ⟨r, mode, byte⟩
  · rw [mode, byte] at word
    have number : ∀ t ∈ [RsmTokenType.number v], t.Proper := fun t mem => by
      cases List.mem_singleton.mp mem
      exact few
    rcases operand with takes | access
    · refine ⟨_, (@Documented.sourceImm _ (rvmDecode w).reg v takes).accepted,
        proper_of_operands (proper_reg _) number, fun program _ _ => ⟨⟨rfl, rfl⟩, ?_⟩⟩
      rw [encode_sourceImm program i takes, word]
    · refine @exists_access n i w op access (.imm v) nofun number (fun _ => rfl) fun program => ?_
      show ((rvmEncode op (rvmDecode w).reg .immOrAddr (v.setWidth 8)).toNat : Int) = w.toNat
      rw [word]
  · rw [mode, byte] at word
    rcases operand with takes | access
    · refine ⟨_, (@Documented.sourceReg _ (rvmDecode w).reg r takes).accepted,
        proper_of_operands (proper_reg _) (proper_reg r), fun program _ _ => ⟨⟨rfl, rfl⟩, ?_⟩⟩
      rw [encode_sourceReg program i takes, word]
    · refine @exists_access n i w op access (.reg r) nofun (proper_reg r) (fun _ => rfl)
        fun program => ?_
      show ((rvmEncode op (rvmDecode w).reg .reg (RvmReg.toByte r)).toNat : Int) = w.toNat
      rw [word]

/-- A jump or CALL for a word. -/
theorem exists_instr_transfer {n i : Nat} {w : Word} {op : RvmOpcode}
    (opcode : (rvmDecode w).opcode = op.code) (transfers : op.transfers = true)
    (writable : WritableAs n i w op) : ∃ instr, Has n i w instr := by
  have high := rvmDecode_opcode w
  rw [opcode] at high
  rw [writableAs_transfers transfers] at writable
  split at writable
  · next register =>
    refine ⟨_, (Documented.toReg (r := ⟨_, writable⟩) transfers).accepted,
      proper_of_operands (proper_reg _) (List.forall_mem_nil _), fun program _ _ =>
        ⟨⟨rfl, rfl⟩, (encode_toReg program i transfers _ _).trans (congrArg Int.ofNat ?_)⟩⟩
    rw [ctrlReg_toNat]
    show op.code * 4096 + 2048 + w.toNat % 2048 = w.toNat
    omega
  · next relative =>
    obtain ⟨a, inside, fits, distance⟩ := writable
    have named : ∀ t ∈ (RsmOperand.label (indexName a)).tokens, t.Proper := fun t mem => by
      cases List.mem_singleton.mp mem
      exact indexName_isName a
    refine ⟨_, (@Documented.toLabel _ (indexName a) transfers).accepted,
      proper_of_operands named (List.forall_mem_nil _), fun program length labels => ?_⟩
    have defined := labels a (by rw [length]; exact inside) fits
    have small : (BitVec.ofNat 16 a).toNat = a := by
      rw [BitVec.toNat_ofNat]
      exact Nat.mod_eq_of_lt (Nat.lt_succ_of_le fits)
    refine ⟨⟨(labelUndefined_label program _).mpr (by rw [defined]; rfl), rfl⟩, ?_⟩
    rw [encode_toLabel program i transfers defined, ctrlImm_toNat, small]
    have written := distance_toNat a i
    omega

/-- **From words to instructions.** Every writable word is that of an instruction. -/
theorem Writable.exists_instr {n i : Nat} {w : Word} (writable : Writable n i w) :
    ∃ instr, Has n i w instr := by
  obtain ⟨op, opcode, limits⟩ := writable
  rcases op.kinds with takes | rfl | rfl | transfers | rfl
  · exact exists_instr_operand opcode (.inl takes) ((writableAs_operand (.inl takes)).mp limits)
  · exact exists_instr_operand opcode (.inr (.inl rfl)) limits
  · exact exists_instr_operand opcode (.inr (.inr rfl)) limits
  · exact exists_instr_transfer opcode transfers limits
  · refine ⟨_, Documented.ret.accepted, proper_of_operands (List.forall_mem_nil _)
      (List.forall_mem_nil _), fun program _ _ => ⟨⟨rfl, rfl⟩, ?_⟩⟩
    have high := rvmDecode_opcode w
    have low : w.toNat % 4096 = 0 := limits
    rw [opcode] at high
    rw [encode_ret]
    show ((0xF000 : Nat) : Int) = w.toNat
    have code : RvmOpcode.ret.code = 15 := rfl
    omega

/-- The same for a list of words, from an index on. -/
theorem exists_instrs {n : Nat} (ws : List Word) (i : Nat)
    (writable : ∀ j w, ws[j]? = some w → Writable n (i + j) w) :
    ∃ instrs : List RsmInstr, instrs.length = ws.length ∧
      (∀ instr ∈ instrs, Accepted instr ∧ instr.Proper) ∧
      ∀ program : RsmProgram, program.instrs.items.length = n → HasLabels program →
        (∀ instr ∈ instrs, labelUndefined program instr.opr1 = false ∧
          labelUndefined program instr.opr2 = false) ∧
        AllEncoded program i instrs ∧ wordsFrom program i instrs = ws := by
  induction ws generalizing i with
  | nil =>
    refine ⟨[], rfl, List.forall_mem_nil _, fun program _ _ => ⟨List.forall_mem_nil _, ?_, rfl⟩⟩
    exact fun j instr at_ => by cases at_
  | cons w ws ih =>
    have first : Writable n i w := writable 0 w rfl
    obtain ⟨instr, accepted, proper, encodes⟩ := first.exists_instr
    obtain ⟨instrs, length, good, rest⟩ := ih (i + 1) fun j w' at_ => by
      have later := writable (j + 1) w' at_
      rwa [← Nat.add_assoc, Nat.add_right_comm] at later
    refine ⟨instr :: instrs, congrArg Nat.succ length, ?_, fun program size labels => ?_⟩
    · exact List.forall_mem_cons.mpr ⟨⟨accepted, proper⟩, good⟩
    · obtain ⟨defined, word⟩ := encodes program size labels
      obtain ⟨definedRest, all, words⟩ := rest program size labels
      refine ⟨List.forall_mem_cons.mpr ⟨defined, definedRest⟩, allEncoded_cons.mpr ⟨?_, all⟩, ?_⟩
      · rw [word]
        omega
      · rw [wordsFrom, words, word, BitVec.ofInt_natCast, BitVec.ofNat_toNat, BitVec.setWidth_eq]

/-! ## From instructions to words -/

/-- The mode and the byte of an operand in brackets. -/
theorem operand?_small {program : RsmProgram} {mem : RsmMem} {mode : RvmMode} {operand : Byte}
    (found : mem.operand? program = some (mode, operand)) : mode = .reg → operand.toNat < 8 := by
  rintro rfl
  cases mem with
  | none | imm => cases found
  | reg r =>
    cases found
    rw [RvmReg.toByte_toNat]
    exact r.isLt
  | label name =>
    obtain ⟨a, _, same⟩ := Option.map_eq_some_iff.mp found
    cases same

theorem writable_rvmEncode {n i : Nat} {op : RvmOpcode}
    (operand : op.takesSource = true ∨ op = .load ∨ op = .store) {r : RvmReg} {mode : RvmMode}
    {byte : Byte} (small : mode = .reg → byte.toNat < 8) :
    Writable n i (rvmEncode op r mode byte) := by
  refine ⟨op, by rw [rvmDecode_rvmEncode], (writableAs_operand operand).mpr ?_⟩
  rw [rvmDecode_rvmEncode]
  exact small

/-- The word of a LOAD or STORE. -/
theorem writable_access {program : RsmProgram} {n i : Nat} {op : RvmOpcode}
    (access : op = .load ∨ op = .store) {r : RvmReg} {mem : RsmMem} {w : Word}
    (encoded : mem.encoded program op r = w.toNat) : Writable n i w := by
  unfold RsmMem.encoded at encoded
  cases found : mem.operand? program with
  | none =>
    rw [found] at encoded
    have : (-1 : Int) = w.toNat := encoded
    omega
  | some operand =>
    obtain ⟨mode, byte⟩ := operand
    rw [found] at encoded
    obtain rfl := word_unique encoded rfl
    exact writable_rvmEncode (.inr access) (operand?_small found)

/-- **From instructions to words.** The word of an instruction is writable where no label is behind
the end of the program. -/
theorem writable_of_encoded {program : RsmProgram} {n i : Nat} {instr : RsmInstr} {w : Word}
    (accepted : Accepted instr)
    (inside : ∀ name a, program.address? name = some a → a.toNat ≤ n)
    (encoded : (rsmEncodeInstr program instr i).val = w.toNat) : Writable n i w := by
  cases accepted_shape accepted.check with
  | @sourceImm op rvd v takes =>
    obtain rfl := word_unique encoded (encode_sourceImm program i takes rvd v)
    exact writable_rvmEncode (.inl takes) nofun
  | @sourceReg op rvd rvs takes =>
    obtain rfl := word_unique encoded (encode_sourceReg program i takes rvd rvs)
    refine writable_rvmEncode (.inl takes) fun _ => ?_
    rw [RvmReg.toByte_toNat]
    exact rvs.isLt
  | @load rvd mem =>
    rw [encode_load] at encoded
    exact writable_access (.inl rfl) encoded
  | @store mem rvs =>
    rw [encode_store] at encoded
    exact writable_access (.inr rfl) encoded
  | @toLabel op name opr2 transfers =>
    cases defined : program.address? name with
    | none =>
      have missing : ¬ HasWord program ⟨op, .label name, opr2⟩ := by
        intro has
        cases has with
        | toLabel _ defines => exact (undefined_iff program name).mpr defined defines
        | ret => cases transfers
      rw [encode_missing missing] at encoded
      omega
    | some a =>
      obtain rfl := word_unique encoded (encode_toLabel program i transfers defined opr2)
      have value := ctrlImm_toNat op "" (BitVec.ofInt 16 (((a.toNat : Int) - intOfSize i - 1) * 2))
      have written := distance_toNat a.toNat i
      refine ⟨op, ctrlImm_opcode "" _, (writableAs_transfers transfers).mpr ?_⟩
      rw [if_neg (by omega)]
      exact ⟨a.toNat, inside name a defined, Nat.le_of_lt_succ a.isLt, by rw [value]; omega⟩
  | @toReg op r opr2 transfers =>
    obtain rfl := word_unique encoded (encode_toReg program i transfers r opr2)
    have value := ctrlReg_toNat op r
    have small := r.isLt
    refine ⟨op, ctrlReg_opcode r, (writableAs_transfers transfers).mpr ?_⟩
    rw [if_pos (by omega)]
    omega
  | toImm transfers =>
    rw [encode_toImm program i transfers] at encoded
    omega
  | ret =>
    obtain rfl := word_unique encoded (encode_ret program i .none .none)
    exact ⟨.ret, by decide, (by decide : rvmRet.toNat % 4096 = 0)⟩

/-! ## Images -/

/-- No label of a parsed program is behind its end. -/
theorem Parses.address_le {realloc : Nat → Bool} {src : List Byte} {program : RsmProgram}
    (parses : Parses realloc src program) {name : RsmIdent} {a : Word}
    (defined : program.address? name = some a) : a.toNat ≤ program.instrs.items.length := by
  obtain ⟨items, _, built⟩ := parses.sentence
  obtain ⟨label, found, rfl⟩ := Option.map_eq_some_iff.mp defined
  have labels : program.labels.items = labelsOf 0 items := built.labels
  have instrs : program.instrs.items = instrsOf items := built.instrs
  have mem := List.mem_of_find?_eq_some found
  rw [labels] at mem
  obtain ⟨before, after, split, address⟩ := mem_labelsOf.mp mem
  rw [instrs, split, instrsOf_append, List.length_append, address, BitVec.toNat_ofNat]
  have := Nat.mod_le (0 + (instrsOf before).length) (2 ^ 16)
  omega

/-- **The images of the assembler.** A file is the image of some source exactly when it is made of
words that can be written at their indices, distances being cut down to eleven bits. -/
theorem image_iff {bytes : List Byte} :
    (∃ src program, Parses (fun _ => true) src program ∧ (rsmResolveLabels program).val = 0 ∧
      (rsmEmitBinary .working program []).val = (0, bytes)) ↔
    ∃ ws, bytes = wordsToBytes ws ∧ ∀ i w, ws[i]? = some w → Writable ws.length i w := by
  constructor
  · rintro ⟨src, program, parses, _, emitted⟩
    obtain ⟨all, rfl⟩ := rsmEmitBinary_iff.mp emitted
    refine ⟨_, rfl, fun i w at_ => ?_⟩
    have length := length_wordsFrom program 0 program.instrs.items
    have bound := (List.getElem?_eq_some_iff.mp at_).1
    obtain ⟨instr, found⟩ : ∃ instr, program.instrs.items[i]? = some instr :=
      ⟨_, List.getElem?_eq_getElem (length ▸ bound)⟩
    have encodes := all i instr found
    have word := getElem?_wordsFrom program (i := 0) found
    rw [Nat.zero_add] at encodes word
    obtain ⟨w', encoded⟩ := (not_not.mp (mt (encode_error_iff i).mpr encodes)).encoded i
    rw [at_, encoded, BitVec.ofInt_natCast, BitVec.ofNat_toNat, BitVec.setWidth_eq] at word
    cases word
    rw [length]
    exact writable_of_encoded (parses.accepted instr (List.mem_of_getElem? found))
      (fun _ _ defined => parses.address_le defined) encoded
  · rintro ⟨ws, rfl, writable⟩
    obtain ⟨instrs, length, good, encodes⟩ := exists_instrs ws 0 fun j w at_ => by
      rw [Nat.zero_add]
      exact writable j w at_
    obtain ⟨src, program, parses, items, labels⟩ := exists_labelled_source
      (fun instr mem => (good instr mem).1) fun instr mem => (good instr mem).2
    obtain ⟨defined, all, words⟩ := encodes program (by rw [items, length]) labels
    rw [← items] at defined all words
    refine ⟨src, program, parses, resolveLabels_zero.mpr defined, ?_⟩
    rw [rsmEmitBinary_of_all all, words]

end RocketVm
