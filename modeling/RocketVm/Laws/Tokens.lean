import RocketVm.Language
import RocketVm.Laws.Parser

/-!
# Token streams

The parser sees a text as the tokens that the calls of the tokenizer return one after the other.
`sourceTokens` collects them, `Reads` says that a parser is in front of them, and the operand and
instruction parsers are described by the tokens they take: what is parsed was there
(`parseOperands_sound`), and what is there is parsed (`parseOperands_complete`).
-/

namespace RocketVm

open Lib

/-! ## Streams -/

/-- The current token of the parser and those the tokenizer will return are `ts`, then the end. -/
def Reads : RsmParser → List RsmTokenType → Prop
  | parser, [] => parser.token.type = .eof
  | parser, t :: ts =>
    parser.token.type = t ∧ t ≠ .eof ∧ Reads (rsmParserAdvance parser.lexer).val ts

/-- The tokens from a parser on, at most as many as the fuel. -/
def tokensFrom : Nat → RsmParser → List RsmTokenType
  | 0, _ => []
  | fuel + 1, parser =>
    if parser.token.type = .eof then []
    else parser.token.type :: tokensFrom fuel (rsmParserAdvance parser.lexer).val

/-- The tokens of a source text. -/
def sourceTokens (src : List Byte) : List RsmTokenType :=
  tokensFrom (src.length + 1) (rsmParserAdvance (rsmLexerCreate src)).val

theorem reads_tokensFrom {fuel : Nat} {parser : RsmParser}
    (enough : parser.token.type = .eof ∨ parser.lexer.left < fuel) :
    Reads parser (tokensFrom fuel parser) := by
  induction fuel generalizing parser with
  | zero => exact enough.resolve_right (Nat.not_lt_zero _)
  | succ fuel ih =>
    rw [tokensFrom]
    by_cases eof : parser.token.type = .eof
    · rw [if_pos eof]
      exact eof
    · rw [if_neg eof]
      have left := enough.resolve_left eof
      refine ⟨rfl, eof, ih ?_⟩
      refine (rsmLexerTokenize_left parser.lexer).2.imp_right fun less => ?_
      show (rsmLexerTokenize parser.lexer).val.2.left < fuel
      omega

/-- A parser at the start of a text is in front of its tokens. -/
theorem reads_sourceTokens (src : List Byte) :
    Reads (rsmParserAdvance (rsmLexerCreate src)).val (sourceTokens src) := by
  refine reads_tokensFrom (.inr (Nat.lt_succ_of_le ?_))
  exact (rsmLexerTokenize_left (rsmLexerCreate src)).1

/-- A parser is in front of one sequence of tokens. -/
theorem Reads.unique {parser : RsmParser} {ts ts' : List RsmTokenType} (h : Reads parser ts)
    (h' : Reads parser ts') : ts = ts' := by
  induction ts generalizing parser ts' with
  | nil =>
    cases ts' with
    | nil => rfl
    | cons t ts' => exact absurd (h'.1.symm.trans h) h'.2.1
  | cons t ts ih =>
    cases ts' with
    | nil => exact absurd (h.1.symm.trans h') h.2.1
    | cons t' ts' =>
      obtain rfl : t = t' := h.1.symm.trans h'.1
      rw [ih h.2.2 h'.2.2]

/-- The token in front of the parser. -/
theorem Reads.type {parser : RsmParser} {ts : List RsmTokenType} (h : Reads parser ts) :
    parser.token.type = ts.head?.getD .eof := by
  cases ts with
  | nil => exact h
  | cons t ts => exact h.1

/-- The token in front of the parser is the first one, and the tokenizer returns the others. -/
theorem Reads.next {parser : RsmParser} {ts : List RsmTokenType} {t : RsmTokenType}
    (h : Reads parser ts) (type : parser.token.type = t) (running : t ≠ .eof) :
    ∃ ts', ts = t :: ts' ∧ Reads (rsmParserAdvance parser.lexer).val ts' := by
  cases ts with
  | nil => exact absurd (type.symm.trans h) running
  | cons t' ts =>
    obtain rfl : t' = t := h.1.symm.trans type
    exact ⟨ts, rfl, h.2.2⟩

/-! ## Operands -/

/-- The operand has a token. -/
def RsmOperand.Given (opr : RsmOperand) : Prop := opr ≠ .none ∧ opr ≠ .mem .none

variable {parser : RsmParser} {ts : List RsmTokenType}

theorem RsmTokenType.mem?_tokens {type : RsmTokenType} {mem : RsmMem} (h : type.mem? = some mem) :
    mem.tokens = [type] ∧ mem ≠ .none := by
  cases type <;> cases h <;> exact ⟨rfl, RsmMem.noConfusion⟩

theorem RsmTokenType.operand?_tokens {type : RsmTokenType} {opr : RsmOperand}
    (h : type.operand? = some opr) : opr.tokens = [type] ∧ opr.Given := by
  cases type <;> cases h <;> exact ⟨rfl, RsmOperand.noConfusion, RsmOperand.noConfusion⟩

theorem RsmTokenType.mem?_running {type : RsmTokenType} {mem : RsmMem}
    (h : type.mem? = some mem) : type ≠ .eof := by
  rintro rfl
  cases h

theorem RsmTokenType.operand?_running {type : RsmTokenType} {opr : RsmOperand}
    (h : type.operand? = some opr) : type ≠ .eof := by
  rintro rfl
  cases h

/-- A given memory operand has one token between its brackets. -/
theorem RsmMem.tokens_mem? {mem : RsmMem} (given : mem ≠ .none) :
    ∃ type, mem.tokens = [type] ∧ type.mem? = some mem := by
  cases mem with
  | none => exact absurd rfl given
  | imm | reg | label => exact ⟨_, rfl, rfl⟩

/-- A parsed operand is the one whose tokens were there. -/
theorem parseOperand_sound {opr : RsmOperand} {behind : RsmParser} (h : Reads parser ts)
    (parsed : (rsmParserParseOperand parser).val = (some opr, behind)) :
    opr.Given ∧ ∃ ts', ts = opr.tokens ++ ts' ∧
      Reads (rsmParserAdvance behind.lexer).val ts' := by
  cases rsmParserParseOperand_cases parsed with
  | single type =>
    obtain ⟨token, given⟩ := RsmTokenType.operand?_tokens type
    obtain ⟨ts', rfl, rest⟩ := h.next rfl (RsmTokenType.operand?_running type)
    refine ⟨given, ts', ?_, rest⟩
    rw [token]
    rfl
  | @memory mem bracket inside closing =>
    obtain ⟨token, given⟩ := RsmTokenType.mem?_tokens inside
    obtain ⟨ts1, rfl, h1⟩ := h.next bracket RsmTokenType.noConfusion
    obtain ⟨ts2, rfl, h2⟩ := h1.next rfl (RsmTokenType.mem?_running inside)
    obtain ⟨ts3, rfl, h3⟩ := h2.next closing RsmTokenType.noConfusion
    have given' : RsmOperand.mem mem ≠ .mem .none := fun same => given (RsmOperand.mem.inj same)
    refine ⟨⟨RsmOperand.noConfusion, given'⟩, ts3, ?_, h3⟩
    rw [RsmOperand.tokens, token]
    rfl

/-- An operand whose tokens are there is parsed. -/
theorem parseOperand_complete {opr : RsmOperand} (given : opr.Given)
    (h : Reads parser (opr.tokens ++ ts)) :
    ∃ behind, (rsmParserParseOperand parser).val = (some opr, behind) ∧
      Reads (rsmParserAdvance behind.lexer).val ts := by
  have single : ∀ {t : RsmTokenType}, Reads parser (t :: ts) → t ≠ .lbracket →
      t.operand? = some opr → ∃ behind, (rsmParserParseOperand parser).val = (some opr, behind) ∧
        Reads (rsmParserAdvance behind.lexer).val ts := by
    rintro t ⟨type, _, rest⟩ other found
    refine ⟨parser, ?_, rest⟩
    rw [rsmParserParseOperand, if_neg (type ▸ other), type]
    simp only [found, Traced.val_pure]
  cases opr with
  | none => exact absurd rfl given.1
  | imm v => exact single h RsmTokenType.noConfusion rfl
  | reg r => exact single h RsmTokenType.noConfusion rfl
  | label name => exact single h RsmTokenType.noConfusion rfl
  | mem mem =>
    obtain ⟨t, token, inside⟩ := RsmMem.tokens_mem? fun none => given.2 (congrArg _ none)
    rw [RsmOperand.tokens, token] at h
    obtain ⟨type1, _, type2, _, type3, _, rest⟩ := h
    refine ⟨(rsmParserAdvance (rsmParserAdvance parser.lexer).val.lexer).val, ?_, rest⟩
    have closing : ¬ (rsmParserAdvance
        (rsmParserAdvance parser.lexer).val.lexer).val.token.type ≠ .rbracket := not_not.mpr type3
    rw [rsmParserParseOperand, if_pos type1, Traced.val_bind, type2]
    simp only [inside, Traced.val_bind, if_neg closing, Traced.val_pure]

/-- Parsed operands are those whose tokens were there. -/
theorem parseOperands_sound {opcode : RvmOpcode} {opr1 opr2 : RsmOperand} {behind : RsmParser}
    (h : Reads parser ts)
    (parsed : (parseOperands opcode parser).val = (some (opr1, opr2), behind)) :
    ∃ ts', ts = operandTokens opr1 opr2 ++ ts' ∧ Reads behind ts' := by
  cases parseOperands_cases parsed with
  | none bare => exact ⟨ts, rfl, h⟩
  | one first single =>
    obtain ⟨_, ts1, rfl, h1⟩ := parseOperand_sound h first
    exact ⟨ts1, rfl, h1⟩
  | two first comma second =>
    obtain ⟨_, ts1, rfl, h1⟩ := parseOperand_sound h first
    obtain ⟨ts2, rfl, h2⟩ := h1.next comma RsmTokenType.noConfusion
    obtain ⟨given, ts3, rfl, h3⟩ := parseOperand_sound h2 second
    refine ⟨ts3, ?_, h3⟩
    rw [operandTokens, if_neg given.1, List.append_assoc]
    rfl

/-- The tokens of an operand do not end a line. -/
theorem RsmOperand.Given.not_endsLine {opr : RsmOperand} (given : opr.Given)
    (h : Reads parser (opr.tokens ++ ts)) : parser.token.type.endsLine = false := by
  cases opr with
  | none => exact absurd rfl given.1
  | imm | reg | label | mem =>
    rw [h.type]
    rfl

/-- A line ends at these tokens for the parser. -/
theorem LineEnds.endsLine (ends : LineEnds ts) (h : Reads parser ts) :
    parser.token.type.endsLine = true := by
  rw [h.type]
  obtain rfl | ⟨ts', rfl⟩ := ends
  · rfl
  · rfl

/-- Operands whose tokens are there, up to the end of the line, are parsed. -/
theorem parseOperands_complete {opcode : RvmOpcode} {opr1 opr2 : RsmOperand}
    (takes : opcode ≠ .ret) (given1 : opr1.Given) (given2 : opr2 ≠ .none → opr2.Given)
    (ends : LineEnds ts) (h : Reads parser (operandTokens opr1 opr2 ++ ts)) :
    ∃ behind, (parseOperands opcode parser).val = (some (opr1, opr2), behind) ∧
      Reads behind ts := by
  have start : ∀ {ts'}, Reads parser (opr1.tokens ++ ts') →
      ¬ (opcode = .ret || parser.token.type.endsLine) = true := by
    intro ts' h
    rw [given1.not_endsLine h, decide_eq_false takes]
    exact Bool.false_ne_true
  by_cases single : opr2 = .none
  · subst single
    rw [operandTokens, if_pos rfl] at h
    obtain ⟨last, operand, rest⟩ := parseOperand_complete given1 h
    have comma : ¬ (rsmParserAdvance last.lexer).val.token.type = .comma := by
      intro comma
      have ends := ends.endsLine rest
      rw [comma] at ends
      cases ends
    refine ⟨(rsmParserAdvance last.lexer).val, ?_, rest⟩
    rw [parseOperands, if_neg (start h), Traced.val_bind, operand]
    dsimp only
    rw [Traced.val_bind, if_neg comma, Traced.val_pure]
  · rw [operandTokens, if_neg single, List.append_assoc] at h
    obtain ⟨last, operand, comma, _, second⟩ := parseOperand_complete given1 h
    obtain ⟨last', operand', rest⟩ := parseOperand_complete (given2 single) second
    refine ⟨(rsmParserAdvance last'.lexer).val, ?_, rest⟩
    rw [parseOperands, if_neg (start h), Traced.val_bind, operand]
    dsimp only
    rw [Traced.val_bind, if_pos comma, Traced.val_bind, Traced.val_bind, operand']
    rfl

end RocketVm
