import RocketVm.Laws.Parser

/-!
# Calls of the tokenizer

The parser calls the tokenizer only at a token that does not end the text, and such a token took at
least one byte. So there is at most one call for each byte and one more for the end
(`rsmParserParse_calls`).
-/

namespace RocketVm

open Lib

/-! ## One call -/

theorem ctypeCall_calls (accepts : Int → Bool) (arg : Int) :
    (ctypeCall accepts arg).count .tokenize = 0 := by
  rw [ctypeCall, Traced.count_bind, Traced.count_emit]
  rfl

theorem skipTrivia_calls (inside : Bool) (text : List Byte) :
    (skipTrivia inside text).count .tokenize = 0 := by
  induction text generalizing inside with
  | nil => cases inside <;> rfl
  | cons ch text ih =>
    cases inside with
    | false =>
      rw [skipTrivia, Traced.count_bind, isspace, ctypeCall_calls, Nat.zero_add]
      split
      · rw [Traced.count_bind, ih]
        rfl
      · split
        · rw [Traced.count_bind, ih]
          rfl
        · rfl
    | true =>
      rw [skipTrivia]
      split
      · rw [Traced.count_bind, ih]
        rfl
      · rw [Traced.count_bind, isspace, ctypeCall_calls]
        rfl

theorem scanIdent_calls (text : List Byte) : (scanIdent text).count .tokenize = 0 := by
  induction text with
  | nil => rfl
  | cons ch text ih =>
    rw [scanIdent, Traced.count_bind, isalnum, ctypeCall_calls, Nat.zero_add]
    split
    · rw [Traced.count_bind, ih]
      rfl
    · rfl

theorem tokenizeNumber_calls (lexer : RsmLexer) (text : List Byte) :
    (tokenizeNumber lexer text).count .tokenize = 0 := by
  unfold tokenizeNumber
  dsimp only
  split
  · rfl
  · split <;> rfl

theorem rsmLexerTokenize_calls (lexer : RsmLexer) :
    (rsmLexerTokenize lexer).count .tokenize = 1 := by
  rw [rsmLexerTokenize, Traced.count_bind, Traced.count_bind, skipTrivia_calls]
  rw [Traced.count_emit, if_pos rfl, Nat.zero_add, Nat.add_eq_left]
  dsimp only
  split
  · rfl
  · split
    · rfl
    · rw [Traced.count_bind, isalpha, ctypeCall_calls, Nat.zero_add]
      split
      · rw [Traced.count_bind, scanIdent_calls]
        rfl
      · rw [Traced.count_bind, isdigit, ctypeCall_calls, Nat.zero_add]
        split
        · exact tokenizeNumber_calls _ _
        · rfl

/-! ## Calls of the parser -/

/-- How many calls a parser may still make: none at the end of the text. -/
def RsmParser.budget (parser : RsmParser) : Nat :=
  if parser.token.type = .eof then 0 else parser.lexer.left + 1

theorem RsmParser.budget_of_ne {parser : RsmParser} (more : parser.token.type ≠ .eof) :
    parser.budget = parser.lexer.left + 1 := if_neg more

/-- A call pays for itself with the text that it takes. -/
theorem rsmParserAdvance_budget (lexer : RsmLexer) :
    (rsmParserAdvance lexer).count .tokenize + (rsmParserAdvance lexer).val.budget ≤
      lexer.left + 1 := by
  have one : (rsmParserAdvance lexer).count .tokenize = 1 := by
    rw [rsmParserAdvance, Traced.count_bind, rsmLexerTokenize_calls]
    rfl
  rw [one, RsmParser.budget]
  split
  · omega
  · next more =>
    have less : (rsmParserAdvance lexer).val.lexer.left < lexer.left :=
      (rsmLexerTokenize_left lexer).2.resolve_left more
    omega

theorem advance_budget {parser : RsmParser} (more : parser.token.type ≠ .eof) :
    (rsmParserAdvance parser.lexer).count .tokenize + (rsmParserAdvance parser.lexer).val.budget ≤
      parser.budget := by
  rw [RsmParser.budget_of_ne more]
  exact rsmParserAdvance_budget parser.lexer

theorem error_calls (format : String) (args : List RsmArg) :
    (Traced.emit (.error format args) : Traced RsmEvent Unit).count .tokenize = 0 := rfl

theorem RsmTokenType.mem?_eof {type : RsmTokenType} {mem : RsmMem} (h : type.mem? = some mem) :
    type ≠ .eof := by
  rintro rfl
  cases h

theorem RsmTokenType.operand?_eof {type : RsmTokenType} {operand : RsmOperand}
    (h : type.operand? = some operand) : type ≠ .eof := by
  rintro rfl
  cases h

/-- An operand is paid for, and does not end with the text. -/
theorem rsmParserParseOperand_budget (parser : RsmParser) :
    (rsmParserParseOperand parser).count .tokenize + (rsmParserParseOperand parser).val.2.budget ≤
      parser.budget ∧
    ((rsmParserParseOperand parser).val.1.isSome = true →
      (rsmParserParseOperand parser).val.2.token.type ≠ .eof) := by
  unfold rsmParserParseOperand
  split
  · next bracket =>
    have first := @advance_budget parser (by rw [bracket]; nofun)
    rw [Traced.count_bind, Traced.val_bind]
    split
    · exact ⟨first, nofun⟩
    · next mem inside =>
      have second := advance_budget (RsmTokenType.mem?_eof inside)
      rw [Traced.count_bind, Traced.val_bind]
      split
      · refine ⟨?_, nofun⟩
        rw [Traced.count_bind, error_calls, Traced.val_bind]
        simp only [Traced.count_pure, Traced.val_pure]
        omega
      · next closing =>
        refine ⟨?_, fun _ eof => ?_⟩
        · simp only [Traced.count_pure, Traced.val_pure]
          omega
        · rw [Traced.val_pure] at eof
          exact closing (by rw [eof]; nofun)
  · split
    · next operand token =>
      exact ⟨Nat.le_of_eq (Nat.zero_add _), fun _ => RsmTokenType.operand?_eof token⟩
    · exact ⟨Nat.le_of_eq (Nat.zero_add _), nofun⟩

/-- An operand is left behind by a call that is paid for. -/
theorem advance_operand_budget {parser last : RsmParser} {opr : RsmOperand}
    (parsed : (rsmParserParseOperand parser).val = (some opr, last)) :
    (rsmParserParseOperand parser).count .tokenize +
      ((rsmParserAdvance last.lexer).count .tokenize +
        (rsmParserAdvance last.lexer).val.budget) ≤ parser.budget := by
  obtain ⟨operand, more⟩ := rsmParserParseOperand_budget parser
  rw [parsed] at operand more
  have next := advance_budget (more rfl)
  dsimp only at operand next
  omega

theorem parseOperands_budget (opcode : RvmOpcode) (parser : RsmParser) :
    (parseOperands opcode parser).count .tokenize + (parseOperands opcode parser).val.2.budget ≤
      parser.budget := by
  unfold parseOperands
  split
  · exact Nat.le_of_eq (Nat.zero_add _)
  · rw [Traced.count_bind, Traced.val_bind]
    rcases first : (rsmParserParseOperand parser).val with ⟨_ | opr1, last⟩
    · have operand := (rsmParserParseOperand_budget parser).1
      rw [first] at operand
      exact operand
    · have paid := advance_operand_budget first
      dsimp only
      rw [Traced.count_bind, Traced.val_bind]
      split
      · next comma =>
        have behind := advance_budget (by rw [comma]; nofun :
          (rsmParserAdvance last.lexer).val.token.type ≠ .eof)
        rw [Traced.count_bind, Traced.val_bind, Traced.count_bind, Traced.val_bind]
        rcases second : (rsmParserParseOperand
            (rsmParserAdvance (rsmParserAdvance last.lexer).val.lexer).val).val with
          ⟨_ | opr2, last'⟩
        · have operand := (rsmParserParseOperand_budget
            (rsmParserAdvance (rsmParserAdvance last.lexer).val.lexer).val).1
          rw [second] at operand
          simp only [Traced.count_pure, Traced.val_pure] at operand ⊢
          omega
        · have paid' := advance_operand_budget second
          simp only [Traced.count_bind, Traced.val_bind, Traced.count_pure, Traced.val_pure]
          omega
      · simp only [Traced.count_pure, Traced.val_pure]
        omega

theorem push_calls {α : Type} (size : Nat) (realloc : Nat → Bool) (table : RsmTable α) (item : α) :
    (table.push size realloc item).count .tokenize = 0 := by
  unfold RsmTable.push
  split
  · dsimp only
    split <;> rfl
  · rfl

/-- Nothing is called, and the parser stays where it is. -/
theorem quiet_budget {parser : RsmParser} {x : Traced RsmEvent (Int × RsmParser × RsmProgram)}
    (none : x.count .tokenize = 0) (same : x.val.2.1 = parser) :
    x.count .tokenize + x.val.2.1.budget ≤ parser.budget := by
  rw [none, same]
  exact Nat.le_of_eq (Nat.zero_add _)

section Line

variable (realloc : Nat → Bool) (parser : RsmParser) (program : RsmProgram)

theorem rsmParserParseOpcode_budget {opcode : RvmOpcode}
    (type : parser.token.type = .opcode opcode) :
    (rsmParserParseOpcode realloc opcode parser program).count .tokenize +
      (rsmParserParseOpcode realloc opcode parser program).val.2.1.budget ≤ parser.budget := by
  have first := advance_budget (by rw [type]; nofun : parser.token.type ≠ .eof)
  have operands := parseOperands_budget opcode (rsmParserAdvance parser.lexer).val
  unfold rsmParserParseOpcode
  rw [Traced.count_bind, Traced.val_bind, Traced.count_bind, Traced.val_bind]
  rcases parsed : (parseOperands opcode (rsmParserAdvance parser.lexer).val).val with
    ⟨_ | ⟨opr1, opr2⟩, behind⟩
  all_goals
    rw [parsed] at operands
    dsimp only at operands ⊢
  · simp only [Traced.count_pure, Traced.val_pure]
    omega
  · -- behind the operands the tokenizer is not called again
    have quiet : ∀ {x : Traced RsmEvent (Int × RsmParser × RsmProgram)},
        x.count .tokenize = 0 → x.val.2.1 = behind →
        (rsmParserAdvance parser.lexer).count .tokenize +
          ((parseOperands opcode (rsmParserAdvance parser.lexer).val).count .tokenize +
            x.count .tokenize) + x.val.2.1.budget ≤ parser.budget := by
      intro x none same
      have := quiet_budget none same
      omega
    split
    · exact quiet rfl rfl
    · split
      · exact quiet rfl rfl
      · have pushed : (rsmProgramPushInstr realloc program ⟨opcode, opr1, opr2⟩).count .tokenize =
            0 := by
          rw [rsmProgramPushInstr, Traced.count_bind, push_calls]
          rfl
        refine quiet ?_ ?_
        · rw [Traced.count_bind, pushed, Nat.zero_add]
          split <;> rfl
        · rw [Traced.val_bind]
          split <;> rfl

theorem parseLabel_budget (name : RsmIdent) :
    (parseLabel realloc name parser program).count .tokenize +
      (parseLabel realloc name parser program).val.2.1.budget ≤ parser.budget := by
  unfold parseLabel
  split
  · next colon =>
    have next := advance_budget (by rw [colon]; nofun : parser.token.type ≠ .eof)
    split
    · exact quiet_budget rfl rfl
    · have pushed : ∀ label, (rsmProgramPushLabel realloc program label).count .tokenize = 0 := by
        intro label
        rw [rsmProgramPushLabel, Traced.count_bind, push_calls]
        rfl
      rw [Traced.count_bind, pushed, Nat.zero_add, Traced.val_bind]
      dsimp only
      split
      · exact quiet_budget rfl rfl
      · simp only [Traced.count_bind, Traced.val_bind, Traced.count_pure, Traced.val_pure]
        omega
  · exact quiet_budget rfl rfl

/-- A pass is paid for. -/
theorem parseLine_budget (more : parser.token.type ≠ .eof) :
    (parseLine realloc parser program).count .tokenize +
      (parseLine realloc parser program).val.2.1.budget ≤ parser.budget := by
  have first := advance_budget more
  unfold parseLine
  split
  · exact quiet_budget rfl rfl
  · next name type =>
    have label := parseLabel_budget realloc (rsmParserAdvance parser.lexer).val program name
    rw [Traced.count_bind, Traced.val_bind]
    omega
  · next opcode type =>
    have parsed := rsmParserParseOpcode_budget realloc parser program type
    rw [Traced.count_bind, Traced.val_bind]
    dsimp only
    split
    · exact parsed
    · exact parsed
  · rw [Traced.count_bind, Traced.val_bind]
    exact first
  · exact quiet_budget rfl rfl

end Line

/-- The main loop pays for its calls. -/
theorem parseLoop_calls (realloc : Nat → Bool) (fuel : Nat) (parser : RsmParser)
    (program : RsmProgram) :
    (parseLoop realloc fuel parser program).count .tokenize ≤ parser.budget := by
  induction fuel generalizing parser program with
  | zero => exact Nat.zero_le _
  | succ fuel ih =>
    rw [parseLoop]
    split
    · exact Nat.zero_le _
    · next more =>
      have line := parseLine_budget realloc parser program more
      rw [Traced.count_bind]
      rcases passed : (parseLine realloc parser program).val with ⟨ret, parser', program'⟩
      rw [passed] at line
      dsimp only at line ⊢
      split
      · rw [Traced.count_pure]
        omega
      · have rest := ih parser' program'
        omega

/-- **The parser's calls.** From a position inside the text there is at most one call for each
byte that is left, and one more. -/
theorem rsmParserParse_calls (realloc : Nat → Bool) (lexer : RsmLexer) (program : RsmProgram) :
    (rsmParserParse realloc lexer program).count .tokenize ≤ lexer.left + 1 := by
  have first := rsmParserAdvance_budget lexer
  have rest := parseLoop_calls realloc (lexer.src.length + 2) (rsmParserAdvance lexer).val program
  rw [rsmParserParse, Traced.count_bind]
  omega

end RocketVm
