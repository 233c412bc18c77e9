import RocketVm.Laws.Encoder
import RocketVm.Laws.Tokens

/-!
# The grammar of the parser

The parser accepts a text if and only if its tokens form a sentence of accepted instructions, and
the program it builds has the instructions and labels of that sentence: what a pass takes is said
by `Takes`, what it adds by `Extends`, and a sentence is one `Takes` after the other. The accepted
instructions are the documented ones and, beside them, jumps with a second operand.
-/

namespace RocketVm

open Lib

/-! ## Items -/

theorem instrsOf_append (items items' : List RsmItem) :
    instrsOf (items ++ items') = instrsOf items ++ instrsOf items' :=
  List.filterMap_append

theorem labelsOf_append (n : Nat) (items items' : List RsmItem) :
    labelsOf n (items ++ items') =
      labelsOf n items ++ labelsOf (n + (instrsOf items).length) items' := by
  induction items generalizing n with
  | nil => rfl
  | cons item items ih =>
    cases item with
    | label name => exact congrArg (List.cons _) (ih n)
    | instr instr =>
      have count : n + (instrsOf (.instr instr :: items)).length =
          n + 1 + (instrsOf items).length := by
        show n + ((instrsOf items).length + 1) = _
        omega
      rw [count]
      exact ih (n + 1)

/-- The program with the instructions and labels of the items added at its end. The addresses of
the labels fit into 16 bits. -/
structure Extends (program : RsmProgram) (items : List RsmItem) (program' : RsmProgram) : Prop where
  instrs : program'.instrs.items = program.instrs.items ++ instrsOf items
  labels : program'.labels.items =
    program.labels.items ++ labelsOf program.instrs.items.length items
  fits : ∀ before name after, items = before ++ .label name :: after →
    program.instrs.items.length + (instrsOf before).length ≤ UINT16_MAX

theorem Extends.refl (program : RsmProgram) : Extends program [] program := by
  refine ⟨(List.append_nil _).symm, (List.append_nil _).symm, ?_⟩
  intro before name after split
  exact absurd split.symm (List.append_ne_nil_of_right_ne_nil before (List.cons_ne_nil _ _))

theorem Extends.label {program program' : RsmProgram} {name : RsmIdent}
    (fits : program.instrs.items.length ≤ UINT16_MAX) (instrs : program'.instrs = program.instrs)
    (labels : program'.labels.items = program.labels.items ++
      [⟨name, BitVec.ofNat 16 program.instrs.items.length⟩]) :
    Extends program [.label name] program' := by
  refine ⟨?_, labels, ?_⟩
  · rw [instrs]
    exact (List.append_nil _).symm
  · intro before name' after split
    cases before with
    | nil => exact fits
    | cons item before => cases before <;> cases split

theorem Extends.instr {program program' : RsmProgram} {instr : RsmInstr}
    (labels : program'.labels = program.labels)
    (instrs : program'.instrs.items = program.instrs.items ++ [instr]) :
    Extends program [.instr instr] program' := by
  refine ⟨instrs, ?_, ?_⟩
  · rw [labels]
    exact (List.append_nil _).symm
  · intro before name after split
    rcases before with _ | ⟨item, _ | ⟨item', before⟩⟩ <;> cases split

theorem Extends.length {program program' : RsmProgram} {items : List RsmItem}
    (h : Extends program items program') :
    program'.instrs.items.length = program.instrs.items.length + (instrsOf items).length := by
  rw [h.instrs, List.length_append]

theorem Extends.trans {program program' program'' : RsmProgram} {items items' : List RsmItem}
    (first : Extends program items program') (second : Extends program' items' program'') :
    Extends program (items ++ items') program'' := by
  refine ⟨?_, ?_, ?_⟩
  · rw [second.instrs, first.instrs, instrsOf_append, List.append_assoc]
  · rw [second.labels, first.labels, first.length, labelsOf_append, List.append_assoc]
  · intro before name after split
    rcases List.append_eq_append_iff.mp split with ⟨tail, rfl, here⟩ | ⟨tail, here, there⟩
    · have fits := second.fits tail name after here
      rw [first.length] at fits
      rw [instrsOf_append, List.length_append]
      omega
    · cases tail with
      | nil =>
        rw [List.append_nil] at here
        have fits := second.fits [] name after there.symm
        rw [first.length, here] at fits
        exact fits
      | cons item tail =>
        cases there
        exact first.fits before name tail here

/-- Every label among the items has at most 65535 instructions before it, the `n` before the items
included. -/
def LabelsFit (n : Nat) (items : List RsmItem) : Prop :=
  ∀ before name after, items = before ++ .label name :: after →
    n + (instrsOf before).length ≤ UINT16_MAX

theorem LabelsFit.right {n : Nat} {items items' : List RsmItem}
    (h : LabelsFit n (items ++ items')) : LabelsFit (n + (instrsOf items).length) items' := by
  intro before name after split
  have fits := h (items ++ before) name after (by rw [split, List.append_assoc])
  rwa [instrsOf_append, List.length_append, ← Nat.add_assoc] at fits

theorem LabelsFit.left {n : Nat} {items items' : List RsmItem}
    (h : LabelsFit n (items ++ items')) : LabelsFit n items := fun before name after split =>
  h before name (after ++ items') (by rw [split, List.append_assoc, List.cons_append])

theorem LabelsFit.append {n : Nat} {items items' : List RsmItem} (first : LabelsFit n items)
    (second : LabelsFit (n + (instrsOf items).length) items') : LabelsFit n (items ++ items') := by
  intro before name after split
  rcases List.append_eq_append_iff.mp split with ⟨tail, rfl, here⟩ | ⟨tail, here, there⟩
  · have fits := second tail name after here
    rwa [instrsOf_append, List.length_append, ← Nat.add_assoc]
  · cases tail with
    | nil =>
      rw [List.append_nil] at here
      subst here
      exact second [] name after there.symm
    | cons item tail =>
      cases there
      exact first before name tail here

theorem LabelsFit.mono {m n : Nat} {items : List RsmItem} (h : LabelsFit n items) (less : m ≤ n) :
    LabelsFit m items := fun before name after split =>
  Nat.le_trans (Nat.add_le_add_right less _) (h before name after split)

theorem LabelsFit.of_length {n : Nat} {items : List RsmItem}
    (few : n + (instrsOf items).length ≤ UINT16_MAX) : LabelsFit n items := by
  intro before name after split
  rw [split, instrsOf_append, List.length_append] at few
  omega

/-! ## Sentences -/

/-- A pass takes the tokens in front of `ts'`, which stand for the items. -/
inductive Takes (valid : RsmInstr → Prop) :
    List RsmTokenType → List RsmItem → List RsmTokenType → Prop
  | newline {ts} : Takes valid (.newline :: ts) [] ts
  | label {ts} (name : RsmIdent) : Takes valid (.ident name :: .colon :: ts) [.label name] ts
  | instr {ts instr} (ok : valid instr) (ends : LineEnds ts) :
      Takes valid (instr.tokens ++ ts) [.instr instr] ts

section Sentence

variable {valid : RsmInstr → Prop} {ts ts' : List RsmTokenType} {items items' : List RsmItem}

theorem Takes.sentence (first : Takes valid ts items ts') (rest : Sentence valid ts' items') :
    Sentence valid ts (items ++ items') := by
  cases first with
  | newline => exact .newline rest
  | label name => exact .label name rest
  | instr ok ends => exact .instr ok ends rest

theorem Sentence.takes (h : Sentence valid ts items) (more : ts ≠ []) :
    ∃ first ts' rest, items = first ++ rest ∧ Takes valid ts first ts' ∧
      Sentence valid ts' rest := by
  cases h with
  | done => exact absurd rfl more
  | newline rest => exact ⟨_, _, _, rfl, .newline, rest⟩
  | label name rest => exact ⟨_, _, _, rfl, .label name, rest⟩
  | instr ok ends rest => exact ⟨_, _, _, rfl, .instr ok ends, rest⟩

theorem Sentence.mono {valid' : RsmInstr → Prop} (h : Sentence valid ts items)
    (weaker : ∀ instr ∈ instrsOf items, valid instr → valid' instr) :
    Sentence valid' ts items := by
  induction h with
  | done => exact .done
  | newline _ ih => exact .newline (ih weaker)
  | label name _ ih => exact .label name (ih weaker)
  | instr ok ends _ ih =>
    refine .instr (weaker _ List.mem_cons_self ok) ends (ih ?_)
    exact fun instr mem => weaker instr (List.mem_cons_of_mem _ mem)

theorem Sentence.all_valid (h : Sentence valid ts items) :
    ∀ instr ∈ instrsOf items, valid instr := by
  induction h with
  | done => exact List.forall_mem_nil _
  | newline _ ih => exact ih
  | label _ _ ih => exact ih
  | instr ok _ _ ih => exact List.forall_mem_cons.mpr ⟨ok, ih⟩

end Sentence

/-! ## Passes -/

section Passes

variable {realloc : Nat → Bool} {parser parser' : RsmParser} {program program' : RsmProgram}
  {ts ts' : List RsmTokenType} {items : List RsmItem}

/-- The parser is at the end of a line. -/
theorem Reads.lineEnds (h : Reads parser ts) (ends : parser.token.type.endsLine = true) :
    LineEnds ts := by
  cases ts with
  | nil => exact .inl rfl
  | cons t ts =>
    rw [h.1] at ends
    cases t <;> first | exact .inr ⟨ts, rfl⟩ | exact absurd rfl h.2.1 | cases ends

/-- A pass that succeeds takes the tokens of what it adds to the program. -/
theorem Pass.takes (pass : Pass parser program parser' program') (h : Reads parser ts) :
    ∃ items ts', Takes Accepted ts items ts' ∧ Reads parser' ts' ∧
      Extends program items program' := by
  cases pass with
  | newline type moved same =>
    subst moved same
    obtain ⟨ts', rfl, rest⟩ := h.next type RsmTokenType.noConfusion
    exact ⟨[], ts', .newline, rest, .refl _⟩
  | @label name type colon moved fits instrs labels =>
    subst moved
    obtain ⟨ts', rfl, behind⟩ := h.next type RsmTokenType.noConfusion
    obtain ⟨ts', rfl, rest⟩ := behind.next colon RsmTokenType.noConfusion
    exact ⟨[.label name], ts', .label name, rest, .label fits instrs labels⟩
  | @instr instr type operands ends check labels instrs =>
    obtain ⟨ts', rfl, rest⟩ := h.next type RsmTokenType.noConfusion
    obtain ⟨ts'', rfl, rest'⟩ := parseOperands_sound rest operands
    have given := @parseOperands_ne instr.opcode (rsmParserAdvance parser.lexer).val
    rw [operands] at given
    have accepted : Accepted instr := ⟨check, (given rfl).1, (given rfl).2⟩
    have takes := Takes.instr accepted (rest'.lineEnds ends)
    exact ⟨[.instr instr], ts'', takes, rest', .instr labels instrs⟩

theorem RsmTable.push_ret {α : Type} {size : Nat} (provides : ∀ n, realloc n = true)
    (table : RsmTable α) (item : α) : (table.push size realloc item).val.1 = 0 := by
  rw [RsmTable.push]
  split
  · simp only [provides, Bool.not_true, Bool.false_eq_true, ↓reduceIte]
    rfl
  · rfl

theorem rsmProgramPushInstr_pushed (provides : ∀ n, realloc n = true) (program : RsmProgram)
    (instr : RsmInstr) :
    ∃ program', (rsmProgramPushInstr realloc program instr).val = (0, program') ∧
      Extends program [.instr instr] program' := by
  rcases pushed : (rsmProgramPushInstr realloc program instr).val with ⟨ret, program'⟩
  obtain rfl : 0 = ret :=
    (RsmTable.push_ret provides program.instrs instr).symm.trans (congrArg Prod.fst pushed)
  obtain ⟨labels, instrs⟩ := rsmProgramPushInstr_items pushed (by decide)
  exact ⟨program', rfl, .instr labels instrs⟩

theorem rsmProgramPushLabel_pushed (provides : ∀ n, realloc n = true)
    (few : program.instrs.items.length ≤ UINT16_MAX) (name : RsmIdent) :
    ∃ program', (rsmProgramPushLabel realloc program
        ⟨name, BitVec.ofNat 16 program.instrs.items.length⟩).val = (0, program') ∧
      Extends program [.label name] program' := by
  rcases pushed : (rsmProgramPushLabel realloc program
    ⟨name, BitVec.ofNat 16 program.instrs.items.length⟩).val with ⟨ret, program'⟩
  obtain rfl : 0 = ret :=
    (RsmTable.push_ret provides program.labels _).symm.trans (congrArg Prod.fst pushed)
  obtain ⟨instrs, labels⟩ := rsmProgramPushLabel_items pushed (by decide)
  exact ⟨program', rfl, .label few instrs labels⟩

/-- The operands of an accepted instruction: none for RET, else one or two. -/
theorem Accepted.operands {instr : RsmInstr} (accepted : Accepted instr) :
    (instr.opcode = .ret ∧ instr.opr1 = .none ∧ instr.opr2 = .none) ∨
    (instr.opcode ≠ .ret ∧ instr.opr1.Given ∧ (instr.opr2 ≠ .none → instr.opr2.Given)) := by
  have second : instr.opr2 ≠ .none → instr.opr2.Given := fun given => ⟨given, accepted.mem2⟩
  have first : instr.opr1 ≠ .none → instr.opr1.Given := fun given => ⟨given, accepted.mem1⟩
  cases accepted_shape accepted.check with
  | ret => exact .inl ⟨rfl, rfl, rfl⟩
  | load | store => exact .inr ⟨RvmOpcode.noConfusion, first RsmOperand.noConfusion, second⟩
  | sourceImm takes | sourceReg takes =>
    refine .inr ⟨?_, first RsmOperand.noConfusion, second⟩
    rintro rfl
    cases takes
  | toLabel transfers | toReg transfers | toImm transfers =>
    refine .inr ⟨?_, first RsmOperand.noConfusion, second⟩
    rintro rfl
    cases transfers

/-- The operands of an accepted instruction are parsed where their tokens stand. -/
theorem Accepted.parseOperands {instr : RsmInstr} (accepted : Accepted instr)
    (ends : LineEnds ts) (h : Reads parser (operandTokens instr.opr1 instr.opr2 ++ ts)) :
    ∃ behind, (parseOperands instr.opcode parser).val =
      (some (instr.opr1, instr.opr2), behind) ∧ Reads behind ts := by
  rcases accepted.operands with ⟨ret, none1, none2⟩ | ⟨other, given1, given2⟩
  · rw [none1, none2, operandTokens, if_pos rfl] at h
    rw [ret, none1, none2]
    exact ⟨parser, rfl, h⟩
  · exact parseOperands_complete other given1 given2 ends h

/-- A pass succeeds where it can take something, when the allocator provides and the program is not
too large for the label it takes, if it takes one. -/
theorem parseLine_takes_of_fits (provides : ∀ n, realloc n = true)
    (fits : ∀ name, items = [.label name] → program.instrs.items.length ≤ UINT16_MAX)
    (takes : Takes Accepted ts items ts') (h : Reads parser ts) :
    ∃ parser' program', (parseLine realloc parser program).val = (0, parser', program') ∧
      Reads parser' ts' ∧ Extends program items program' := by
  unfold parseLine
  rw [h.type]
  cases takes with
  | newline => exact ⟨_, _, rfl, h.2.2, .refl program⟩
  | label name =>
    obtain ⟨_, _, colon, _, rest⟩ := h
    have few := fits name rfl
    obtain ⟨program', pushed, extends_⟩ := rsmProgramPushLabel_pushed provides few name
    refine ⟨_, program', ?_, rest, extends_⟩
    show (parseLabel realloc name _ program).val = _
    rw [parseLabel, if_pos colon, if_neg (Nat.not_lt.mpr few), Traced.val_bind, pushed]
    rfl
  | @instr _ instr accepted ends =>
    obtain ⟨_, _, rest⟩ := h
    obtain ⟨behind, operands, rest⟩ := accepted.parseOperands ends rest
    obtain ⟨program', pushed, extends_⟩ := rsmProgramPushInstr_pushed provides program instr
    refine ⟨behind, program', ?_, rest, extends_⟩
    show (rsmParserParseOpcode realloc instr.opcode parser program >>= _).val = _
    rw [Traced.val_bind]
    have parsed : (rsmParserParseOpcode realloc instr.opcode parser program).val =
        (0, behind, program') := by
      rw [rsmParserParseOpcode, Traced.val_bind, Traced.val_bind, operands]
      simp only [ends.endsLine rest, Bool.not_true, Bool.false_eq_true, ↓reduceIte,
        accepted.check, Traced.val_bind, pushed]
      rfl
    rw [parsed]
    rfl

end Passes

/-! ## Runs -/

section Runs

variable {realloc : Nat → Bool} {fuel : Nat} {parser : RsmParser} {program : RsmProgram}
  {ts : List RsmTokenType}

/-- A run that succeeds has read a sentence. -/
theorem parseLoop_sound {program' : RsmProgram} (h : Reads parser ts)
    (parsed : (parseLoop realloc fuel parser program).val = some (0, program')) :
    ∃ items, Sentence Accepted ts items ∧ Extends program items program' := by
  induction fuel generalizing parser program ts with
  | zero => cases parsed
  | succ fuel ih =>
    rw [parseLoop] at parsed
    split at parsed
    · next eof =>
      cases parsed
      obtain rfl := h.unique (show Reads parser [] from eof)
      exact ⟨[], .done, .refl _⟩
    · rw [Traced.val_bind] at parsed
      rcases passed : (parseLine realloc parser program).val with ⟨ret, parser₁, program₁⟩
      rw [passed] at parsed
      dsimp only at parsed
      split at parsed
      · cases parsed
      · next ok =>
        obtain ⟨items, ts', takes, rest, first⟩ := (parseLine_pass passed ok).takes h
        obtain ⟨items', sentence, second⟩ := ih rest parsed
        exact ⟨items ++ items', takes.sentence sentence, first.trans second⟩

/-- A run over a sentence succeeds, and adds its items to the program. -/
theorem parseLoop_complete_of_fits {items : List RsmItem} {r : Int × RsmProgram}
    (provides : ∀ n, realloc n = true) (sentence : Sentence Accepted ts items)
    (fits : LabelsFit program.instrs.items.length items)
    (h : Reads parser ts) (run : (parseLoop realloc fuel parser program).val = some r) :
    r.1 = 0 ∧ Extends program items r.2 := by
  induction fuel generalizing parser program ts items with
  | zero => cases run
  | succ fuel ih =>
    rw [parseLoop] at run
    split at run
    · next eof =>
      cases run
      obtain rfl := h.unique (show Reads parser [] from eof)
      cases sentence
      exact ⟨rfl, .refl _⟩
    · next more =>
      have more : ts ≠ [] := by
        rintro rfl
        exact more h
      obtain ⟨first, ts', rest, rfl, takes, sentence⟩ := sentence.takes more
      have small : ∀ name, first = [.label name] → program.instrs.items.length ≤ UINT16_MAX :=
        fun name same => fits [] name rest (by rw [same]; rfl)
      obtain ⟨parser', program', passed, behind, extends_⟩ :=
        parseLine_takes_of_fits provides small takes h
      rw [Traced.val_bind, passed] at run
      obtain ⟨ret, extends'⟩ := ih sentence (extends_.length ▸ fits.right) behind run
      exact ⟨ret, extends_.trans extends'⟩

end Runs

/-- A parsed text is a sentence, and its items make up the program. -/
theorem Parses.sentence {realloc : Nat → Bool} {src : List Byte} {program : RsmProgram}
    (h : Parses realloc src program) :
    ∃ items, Sentence Accepted (sourceTokens src) items ∧
      Extends rsmProgramCreate items program :=
  parseLoop_sound (reads_sourceTokens src) h

/-- A sentence is parsed when its labels are not too far down. -/
theorem Sentence.parses_of_fits {src : List Byte} {items : List RsmItem}
    (h : Sentence Accepted (sourceTokens src) items) (fits : LabelsFit 0 items) :
    ∃ program, Parses (fun _ => true) src program ∧
      Extends rsmProgramCreate items program := by
  cases run : (rsmParserParse (fun _ => true) (rsmLexerCreate src) rsmProgramCreate).val with
  | none =>
    have some_ := rsmParserParse_isSome (fun _ => true) (rsmLexerCreate src) rsmProgramCreate
    rw [run] at some_
    cases some_
  | some r =>
    have fits : LabelsFit rsmProgramCreate.instrs.items.length items := fits
    obtain ⟨ret, extends_⟩ :=
      parseLoop_complete_of_fits (fun _ => rfl) h fits (reads_sourceTokens src) run
    refine ⟨r.2, run.trans (congrArg some (Prod.ext ret rfl)), extends_⟩

/-- A sentence that is not too long is parsed. -/
theorem Sentence.parses {src : List Byte} {items : List RsmItem}
    (h : Sentence Accepted (sourceTokens src) items)
    (few : (instrsOf items).length ≤ UINT16_MAX) :
    ∃ program, Parses (fun _ => true) src program ∧
      Extends rsmProgramCreate items program :=
  h.parses_of_fits (.of_length (by rwa [Nat.zero_add]))

/-! ## Counting instructions -/

/-- The token begins an instruction. -/
def RsmTokenType.isOpcode : RsmTokenType → Bool
  | .opcode _ => true
  | _ => false

theorem RsmOperand.countP_tokens (opr : RsmOperand) :
    opr.tokens.countP RsmTokenType.isOpcode = 0 := by
  rcases opr with _ | v | r | name | (_ | v | r | name) <;> rfl

theorem RsmInstr.countP_tokens (instr : RsmInstr) :
    instr.tokens.countP RsmTokenType.isOpcode = 1 := by
  have operands : (operandTokens instr.opr1 instr.opr2).countP RsmTokenType.isOpcode = 0 := by
    unfold operandTokens
    split
    · exact instr.opr1.countP_tokens
    · rw [List.countP_append, List.countP_cons_of_neg (by decide), RsmOperand.countP_tokens,
        RsmOperand.countP_tokens]
  rw [RsmInstr.tokens, List.countP_cons_of_pos rfl, operands]

/-- A sentence has as many instructions as opcode tokens. -/
theorem Sentence.length {valid : RsmInstr → Prop} {ts : List RsmTokenType} {items : List RsmItem}
    (h : Sentence valid ts items) :
    (instrsOf items).length = ts.countP RsmTokenType.isOpcode := by
  induction h with
  | done => rfl
  | newline _ ih => rw [List.countP_cons_of_neg (by decide), ih]
  | label name _ ih =>
    rw [List.countP_cons_of_neg Bool.false_ne_true, List.countP_cons_of_neg (by decide), ← ih]
    rfl
  | @instr _ items instr _ _ _ ih =>
    rw [List.countP_append, instr.countP_tokens, ← ih, Nat.add_comm]
    rfl

/-! ## The documented grammar -/

/-- A jump with a second operand behind its target. -/
inductive TwoOperandJump : RsmInstr → Prop
  | jump {op target opr2} (transfers : op.transfers = true)
      (documented : Documented ⟨op, target, .none⟩) (given : opr2.Given) :
      TwoOperandJump ⟨op, target, opr2⟩

theorem Documented.accepted {instr : RsmInstr} (h : Documented instr) : Accepted instr := by
  cases h with
  | ret => exact ⟨rfl, RsmOperand.noConfusion, RsmOperand.noConfusion⟩
  | load given =>
    exact ⟨rfl, RsmOperand.noConfusion, fun same => given (RsmOperand.mem.inj same)⟩
  | store given =>
    exact ⟨rfl, fun same => given (RsmOperand.mem.inj same), RsmOperand.noConfusion⟩
  | @sourceReg op _ _ takes | @sourceImm op _ _ takes =>
    refine ⟨?_, RsmOperand.noConfusion, RsmOperand.noConfusion⟩
    cases op <;> first | rfl | cases takes
  | @toLabel op _ transfers | @toReg op _ transfers | @toImm op _ transfers =>
    refine ⟨?_, RsmOperand.noConfusion, RsmOperand.noConfusion⟩
    cases op <;> first | rfl | cases transfers

theorem RvmOpcode.transfers_of_takes {op : RvmOpcode} (takes : op.takesSource = true) :
    op.transfers = false := by
  cases op <;> first | rfl | cases takes

theorem TwoOperandJump.accepted {instr : RsmInstr} (h : TwoOperandJump instr) :
    Accepted instr := by
  cases h with
  | @jump op target opr2 transfers documented given =>
    obtain ⟨check, mem1, _⟩ := documented.accepted
    refine ⟨?_, mem1, given.2⟩
    -- the check of a jump does not look at the second operand
    rw [← check]
    cases op <;> first | rfl | cases transfers

theorem TwoOperandJump.not_documented {instr : RsmInstr} (h : TwoOperandJump instr) :
    ¬ Documented instr := by
  cases h with
  | @jump op target opr2 transfers _ given =>
    intro documented
    cases documented with
    | ret | load _ | store _ => cases transfers
    | sourceReg takes | sourceImm takes =>
      exact Bool.false_ne_true ((RvmOpcode.transfers_of_takes takes).symm.trans transfers)
    | toLabel _ | toReg _ | toImm _ => exact given.1 rfl

/-- The parser accepts the documented instructions and the jumps with a second operand. -/
theorem accepted_iff {instr : RsmInstr} :
    Accepted instr ↔ Documented instr ∨ TwoOperandJump instr := by
  refine ⟨fun accepted => ?_, Or.rec Documented.accepted TwoOperandJump.accepted⟩
  have jump : ∀ {op target opr2}, opr2 ≠ .mem .none → op.transfers = true →
      Documented ⟨op, target, .none⟩ →
      Documented ⟨op, target, opr2⟩ ∨ TwoOperandJump ⟨op, target, opr2⟩ := by
    intro op target opr2 given transfers documented
    by_cases single : opr2 = .none
    · rw [single]
      exact .inl documented
    · exact .inr (.jump transfers documented ⟨single, given⟩)
  obtain ⟨check, mem1, mem2⟩ := accepted
  cases accepted_shape check with
  | ret => exact .inl .ret
  | load => exact .inl (.load fun none => mem2 (congrArg _ none))
  | store => exact .inl (.store fun none => mem1 (congrArg _ none))
  | sourceReg takes => exact .inl (.sourceReg takes)
  | sourceImm takes => exact .inl (.sourceImm takes)
  | toLabel transfers => exact jump mem2 transfers (.toLabel transfers)
  | toReg transfers => exact jump mem2 transfers (.toReg transfers)
  | toImm transfers => exact jump mem2 transfers (.toImm transfers)

/-- Two sentences of one text have the same instructions. -/
theorem Sentence.instrsOf_unique {src : List Byte} {items items' : List RsmItem}
    (few : (sourceTokens src).countP RsmTokenType.isOpcode < 65536)
    (h : Sentence Accepted (sourceTokens src) items)
    (h' : Sentence Accepted (sourceTokens src) items') : instrsOf items = instrsOf items' := by
  have small : ∀ {items}, Sentence Accepted (sourceTokens src) items →
      (instrsOf items).length ≤ UINT16_MAX := by
    intro items h
    rw [h.length]
    exact Nat.le_of_lt_succ few
  obtain ⟨program, parsed, built⟩ := h.parses (small h)
  obtain ⟨program', parsed', built'⟩ := h'.parses (small h')
  obtain ⟨_, rfl⟩ := Prod.mk.inj (Option.some.inj (parsed.symm.trans parsed'))
  exact built.instrs.symm.trans built'.instrs

/-- **The grammar of the parser.** For a text of fewer than 65536 instructions and an allocator
that provides every block, acceptance by the parser agrees with the documented grammar if and only
if the text is not a program with a jump that has a second operand behind its target, and with
documented instructions otherwise. -/
theorem parses_iff_documented_iff {src : List Byte}
    (few : (sourceTokens src).countP RsmTokenType.isOpcode < 65536) :
    ((∃ program, Parses (fun _ => true) src program) ↔
      ∃ items, Sentence Documented (sourceTokens src) items) ↔
    ¬ ∃ items, Sentence (fun instr => Documented instr ∨ TwoOperandJump instr)
        (sourceTokens src) items ∧
      ∃ instr ∈ instrsOf items, TwoOperandJump instr := by
  have parses : ∀ {items}, Sentence Accepted (sourceTokens src) items →
      ∃ program, Parses (fun _ => true) src program := by
    intro items h
    have small : (instrsOf items).length ≤ UINT16_MAX := by
      rw [h.length]
      exact Nat.le_of_lt_succ few
    obtain ⟨program, parsed, _⟩ := h.parses small
    exact ⟨program, parsed⟩
  constructor
  · rintro agree ⟨items, sentence, instr, mem, jump⟩
    have accepted := sentence.mono fun instr _ => accepted_iff.mpr
    obtain ⟨items', documented⟩ := agree.mp (parses accepted)
    have accepted' := documented.mono fun instr _ => Documented.accepted
    rw [accepted.instrsOf_unique few accepted'] at mem
    exact jump.not_documented (documented.all_valid instr mem)
  · intro none
    constructor
    · rintro ⟨program, parsed⟩
      obtain ⟨items, accepted, _⟩ := parsed.sentence
      refine ⟨items, accepted.mono fun instr mem ok => ?_⟩
      refine (accepted_iff.mp ok).resolve_right fun jump => none ?_
      exact ⟨items, accepted.mono fun instr _ => accepted_iff.mp, instr, mem, jump⟩
    · rintro ⟨items, documented⟩
      exact parses (documented.mono fun instr _ => Documented.accepted)

/-- The source `JMP rv0,rv1`. -/
def twoOperandSource : List Byte :=
  ['J', 'M', 'P', ' ', 'r', 'v', '0', ',', 'r', 'v', '1'].map chr

/-- The source `a:LOAD rv0,[8]`, newline, `JNZ a`, newline, `JMP rv0,rv1`. -/
def mixedSource : List Byte :=
  ['a', ':', 'L', 'O', 'A', 'D', ' ', 'r', 'v', '0', ',', '[', '8', ']', '\n',
    'J', 'N', 'Z', ' ', 'a', '\n'].map chr ++ twoOperandSource

theorem parses_iff_documented_iff_mixed :
    ((∃ program, Parses (fun _ => true) mixedSource program) ↔
      ∃ items, Sentence Documented (sourceTokens mixedSource) items) ↔
    ¬ ∃ items, Sentence (fun instr => Documented instr ∨ TwoOperandJump instr)
        (sourceTokens mixedSource) items ∧
      ∃ instr ∈ instrsOf items, TwoOperandJump instr :=
  parses_iff_documented_iff (by decide +kernel)

/-- A jump with two operands is parsed, although the document gives jumps one operand. -/
theorem two_operand_jump_parses :
    .invalid ∉ sourceTokens twoOperandSource ∧
    (sourceTokens twoOperandSource).countP RsmTokenType.isOpcode < 65536 ∧
    ¬ ((∃ program, Parses (fun _ => true) twoOperandSource program) ↔
      ∃ items, Sentence Documented (sourceTokens twoOperandSource) items) := by
  have parsed : Parses (fun _ => true) twoOperandSource
      { instrs := ⟨[⟨.jmp, .reg 0, .reg 1⟩], 1024, 1024⟩, labels := .create } := by
    unfold Parses
    decide
  refine ⟨by decide, by decide, fun agree => ?_⟩
  obtain ⟨items, documented⟩ := agree.mp ⟨_, parsed⟩
  obtain ⟨items', accepted, built⟩ := parsed.sentence
  have same := accepted.instrsOf_unique (by decide)
    (documented.mono fun instr _ => Documented.accepted)
  have instrs : [(⟨.jmp, .reg 0, .reg 1⟩ : RsmInstr)] = instrsOf items' := built.instrs
  have jump := documented.all_valid ⟨.jmp, .reg 0, .reg 1⟩ (by
    rw [← same, ← instrs]
    exact List.mem_cons_self)
  cases jump with
  | sourceReg takes => cases takes

end RocketVm
