import RocketVm.Asm.Parser
import RocketVm.Laws.Chunks
import RocketVm.Laws.Tables
import Mathlib.Logic.Relation

/-!
# What the parser builds

`parseLine_pass` says what a pass of the main loop does when it succeeds; it calls the tokenizer at
least once, and adds at most one accepted instruction or one label to the program. The fuel of the
main loop never runs out, and every instruction of a parsed program is an accepted one.
-/

namespace RocketVm

open Lib Relation

/-! ## Tokenizer calls -/

/-- A call of the tokenizer takes the parser from one state to the other. -/
def RsmParser.Next (parser parser' : RsmParser) : Prop :=
  parser' = (rsmParserAdvance parser.lexer).val

theorem RsmParser.Next.left {parser parser' : RsmParser} (h : parser.Next parser') :
    parser'.lexer.left ≤ parser.lexer.left ∧
    (parser'.token.type.stops = true ∨ parser'.lexer.left < parser.lexer.left) := by
  cases h
  have took := rsmLexerTokenize_left parser.lexer
  refine ⟨took.1, took.2.imp_left fun eof => ?_⟩
  show (rsmLexerTokenize parser.lexer).val.1.type.stops = true
  rw [eof]
  rfl

/-- After any number of calls but none, the last token stops the parser or text was taken. -/
theorem RsmParser.left_of_transGen {parser parser' : RsmParser}
    (h : TransGen RsmParser.Next parser parser') :
    parser'.lexer.left ≤ parser.lexer.left ∧
    (parser'.token.type.stops = true ∨ parser'.lexer.left < parser.lexer.left) := by
  induction h with
  | single next => exact next.left
  | tail _ next ih =>
    have := ih.1
    have := next.left.1
    exact ⟨by omega, next.left.2.imp_right fun _ => by omega⟩

/-! ## Operands -/

/-- What `rsm_parser_parse_operand` does: it takes a single token, or a memory operand up to its
closing bracket, or fails after some calls of the tokenizer. -/
inductive OperandCase (parser : RsmParser) : Option RsmOperand × RsmParser → Prop
  | single {opr} (token : parser.token.type.operand? = some opr) :
      OperandCase parser (some opr, parser)
  | memory {mem} (bracket : parser.token.type = .lbracket)
      (inside : (rsmParserAdvance parser.lexer).val.token.type.mem? = some mem)
      (closing : (rsmParserAdvance (rsmParserAdvance parser.lexer).val.lexer).val.token.type =
        .rbracket) :
      OperandCase parser
        (some (.mem mem), (rsmParserAdvance (rsmParserAdvance parser.lexer).val.lexer).val)
  | failed {behind} (moves : ReflTransGen RsmParser.Next parser behind) :
      OperandCase parser (none, behind)

theorem rsmParserParseOperand_cases {parser : RsmParser} {result : Option RsmOperand × RsmParser}
    (h : (rsmParserParseOperand parser).val = result) : OperandCase parser result := by
  subst h
  unfold rsmParserParseOperand
  split
  · next bracket =>
    have first : parser.Next (rsmParserAdvance parser.lexer).val := rfl
    rw [Traced.val_bind]
    split
    · exact .failed (.single first)
    · next mem inside =>
      rw [Traced.val_bind]
      split
      · exact .failed (.tail (.single first) rfl)
      · next closing => exact .memory bracket inside (not_not.mp closing)
  · split
    · next token => exact .single token
    · exact .failed .refl

theorem rsmParserParseOperand_moves (parser : RsmParser) :
    ReflTransGen RsmParser.Next parser (rsmParserParseOperand parser).val.2 := by
  generalize h : (rsmParserParseOperand parser).val = result
  cases rsmParserParseOperand_cases h with
  | single token => exact .refl
  | memory bracket inside closing => exact .tail (.single rfl) rfl
  | failed moves => exact moves

theorem RsmTokenType.operand?_ne {type : RsmTokenType} : type.operand? ≠ some (.mem .none) := by
  cases type <;> nofun

theorem RsmTokenType.mem?_ne {type : RsmTokenType} : type.mem? ≠ some .none := by
  cases type <;> nofun

/-- A memory operand has something between its brackets. -/
theorem rsmParserParseOperand_ne (parser : RsmParser) :
    (rsmParserParseOperand parser).val.1 ≠ some (.mem .none) := by
  generalize h : (rsmParserParseOperand parser).val = result
  cases rsmParserParseOperand_cases h with
  | single token =>
    intro same
    cases same
    exact RsmTokenType.operand?_ne token
  | memory bracket inside closing =>
    intro same
    cases same
    exact RsmTokenType.mem?_ne inside
  | failed moves => nofun

/-- What the parser does with the operands of an instruction: there are none, or one, or two with a
comma between them, or it fails after some calls of the tokenizer. -/
inductive OperandsCase (opcode : RvmOpcode) (parser : RsmParser) :
    Option (RsmOperand × RsmOperand) × RsmParser → Prop
  | none (bare : opcode = .ret ∨ parser.token.type.endsLine = true) :
      OperandsCase opcode parser (some (.none, .none), parser)
  | one {opr last} (first : (rsmParserParseOperand parser).val = (some opr, last))
      (single : (rsmParserAdvance last.lexer).val.token.type ≠ .comma) :
      OperandsCase opcode parser (some (opr, .none), (rsmParserAdvance last.lexer).val)
  | two {opr1 opr2 last last'} (first : (rsmParserParseOperand parser).val = (some opr1, last))
      (comma : (rsmParserAdvance last.lexer).val.token.type = .comma)
      (second : (rsmParserParseOperand
        (rsmParserAdvance (rsmParserAdvance last.lexer).val.lexer).val).val = (some opr2, last')) :
      OperandsCase opcode parser (some (opr1, opr2), (rsmParserAdvance last'.lexer).val)
  | failed {behind} (moves : ReflTransGen RsmParser.Next parser behind) :
      OperandsCase opcode parser (none, behind)

theorem parseOperands_cases {opcode : RvmOpcode} {parser : RsmParser}
    {result : Option (RsmOperand × RsmOperand) × RsmParser}
    (h : (parseOperands opcode parser).val = result) : OperandsCase opcode parser result := by
  subst h
  have moves := rsmParserParseOperand_moves parser
  unfold parseOperands
  split
  · next bare =>
    rw [Bool.or_eq_true, decide_eq_true_eq] at bare
    exact .none bare
  · rw [Traced.val_bind]
    rcases first : (rsmParserParseOperand parser).val with ⟨_ | opr1, last⟩
    · rw [first] at moves
      exact .failed moves
    · rw [first] at moves
      have next : ReflTransGen RsmParser.Next parser (rsmParserAdvance last.lexer).val :=
        moves.tail rfl
      dsimp only
      rw [Traced.val_bind]
      split
      · next comma =>
        rw [Traced.val_bind, Traced.val_bind]
        have moves := (next.tail rfl).trans (rsmParserParseOperand_moves _)
        rcases second : (rsmParserParseOperand
            (rsmParserAdvance (rsmParserAdvance last.lexer).val.lexer).val).val with
          ⟨_ | opr2, last'⟩
        · rw [second] at moves
          exact .failed moves
        · exact .two first comma second
      · next single => exact .one first single

theorem parseOperands_moves (opcode : RvmOpcode) (parser : RsmParser) :
    ReflTransGen RsmParser.Next parser (parseOperands opcode parser).val.2 := by
  have operand : ∀ {parser last : RsmParser} {opr},
      (rsmParserParseOperand parser).val = (opr, last) →
      ReflTransGen RsmParser.Next parser (rsmParserAdvance last.lexer).val := by
    intro parser last opr parsed
    have moves := rsmParserParseOperand_moves parser
    rw [parsed] at moves
    exact moves.tail rfl
  generalize h : (parseOperands opcode parser).val = result
  cases parseOperands_cases h with
  | none bare => exact .refl
  | one first single => exact operand first
  | two first comma second => exact ((operand first).tail rfl).trans (operand second)
  | failed moves => exact moves

theorem parseOperands_ne {opcode : RvmOpcode} {parser : RsmParser} {opr1 opr2 : RsmOperand}
    (h : (parseOperands opcode parser).val.1 = some (opr1, opr2)) :
    opr1 ≠ .mem .none ∧ opr2 ≠ .mem .none := by
  have given : ∀ {parser last : RsmParser} {opr},
      (rsmParserParseOperand parser).val = (some opr, last) → opr ≠ .mem .none := by
    rintro parser last _ parsed rfl
    exact rsmParserParseOperand_ne parser (congrArg Prod.fst parsed)
  generalize parsed : (parseOperands opcode parser).val = result at h
  cases parseOperands_cases parsed with
  | none bare =>
    cases h
    exact ⟨nofun, nofun⟩
  | one first single =>
    cases h
    exact ⟨given first, nofun⟩
  | two first comma second =>
    cases h
    exact ⟨given first, given second⟩
  | failed moves => cases h

/-- An instruction that the parser accepts: its operands pass the check, and a memory operand has
something between its brackets. -/
structure Accepted (instr : RsmInstr) : Prop where
  check : operandError instr = none
  mem1 : instr.opr1 ≠ .mem .none
  mem2 : instr.opr2 ≠ .mem .none

/-! ## Additions to the program -/

/-- What a pass of the main loop adds to the program. -/
inductive Builds (program : RsmProgram) : RsmProgram → Prop
  | nothing : Builds program program
  | instr {program' instr} (accepted : Accepted instr)
      (labels : program'.labels = program.labels)
      (instrs : program'.instrs.items = program.instrs.items ++ [instr]) : Builds program program'
  | label {program' name} (fits : program.instrs.items.length ≤ UINT16_MAX)
      (instrs : program'.instrs = program.instrs)
      (labels : program'.labels.items = program.labels.items ++
        [⟨name, BitVec.ofNat 16 program.instrs.items.length⟩]) : Builds program program'

theorem RsmTable.push_items {α : Type} {size : Nat} {realloc : Nat → Bool} {table : RsmTable α}
    {item : α} (h : (table.push size realloc item).val.1 ≠ -1) :
    (table.push size realloc item).val.2.items = table.items ++ [item] := by
  have appends := (RsmTable.push_cases size realloc table item).appends
  exact (appends.resolve_left fun refused => h refused.1).2

theorem rsmProgramPushInstr_items {realloc : Nat → Bool} {program program' : RsmProgram}
    {instr : RsmInstr} {ret : Int}
    (h : (rsmProgramPushInstr realloc program instr).val = (ret, program')) (ok : ret ≠ -1) :
    program'.labels = program.labels ∧
      program'.instrs.items = program.instrs.items ++ [instr] := by
  cases h
  exact ⟨rfl, RsmTable.push_items ok⟩

theorem rsmProgramPushLabel_items {realloc : Nat → Bool} {program program' : RsmProgram}
    {label : RsmLabel} {ret : Int}
    (h : (rsmProgramPushLabel realloc program label).val = (ret, program')) (ok : ret ≠ -1) :
    program'.instrs = program.instrs ∧
      program'.labels.items = program.labels.items ++ [label] := by
  cases h
  exact ⟨rfl, RsmTable.push_items ok⟩

/-! ## Passes of the main loop -/

/-- What a pass that succeeds does: it skips a newline, or defines a label, or adds an instruction
whose operands it has parsed up to the end of the line. -/
inductive Pass (parser : RsmParser) (program : RsmProgram) (parser' : RsmParser)
    (program' : RsmProgram) : Prop
  | newline (type : parser.token.type = .newline)
      (moved : parser' = (rsmParserAdvance parser.lexer).val) (same : program' = program)
  | label {name} (type : parser.token.type = .ident name)
      (colon : (rsmParserAdvance parser.lexer).val.token.type = .colon)
      (moved : parser' = (rsmParserAdvance (rsmParserAdvance parser.lexer).val.lexer).val)
      (fits : program.instrs.items.length ≤ UINT16_MAX)
      (instrs : program'.instrs = program.instrs)
      (labels : program'.labels.items = program.labels.items ++
        [⟨name, BitVec.ofNat 16 program.instrs.items.length⟩])
  | instr {instr} (type : parser.token.type = .opcode instr.opcode)
      (operands : (parseOperands instr.opcode (rsmParserAdvance parser.lexer).val).val =
        (some (instr.opr1, instr.opr2), parser'))
      (ends : parser'.token.type.endsLine = true) (check : operandError instr = none)
      (labels : program'.labels = program.labels)
      (instrs : program'.instrs.items = program.instrs.items ++ [instr])

section Line

variable {realloc : Nat → Bool} {parser parser' : RsmParser} {program program' : RsmProgram}
  {ret : Int}

theorem rsmParserParseOpcode_pass {opcode : RvmOpcode} (type : parser.token.type = .opcode opcode)
    (h : (rsmParserParseOpcode realloc opcode parser program).val = (ret, parser', program'))
    (ok : ret ≠ -1) : Pass parser program parser' program' := by
  unfold rsmParserParseOpcode at h
  rw [Traced.val_bind, Traced.val_bind] at h
  rcases operands : (parseOperands opcode (rsmParserAdvance parser.lexer).val).val with
    ⟨_ | ⟨opr1, opr2⟩, behind⟩
  · rw [operands] at h
    cases h
    exact absurd rfl ok
  · rw [operands] at h
    dsimp only at h
    split at h
    · cases h
      exact absurd rfl ok
    · next ends =>
      rw [Bool.not_eq_true', Bool.not_eq_false] at ends
      split at h
      · cases h
        exact absurd rfl ok
      · next check =>
        rw [Traced.val_bind] at h
        rcases pushed : (rsmProgramPushInstr realloc program ⟨opcode, opr1, opr2⟩).val with
          ⟨ret', program''⟩
        rw [pushed] at h
        dsimp only at h
        split at h
        · cases h
          exact absurd rfl ok
        · next done =>
          cases h
          obtain ⟨labels, instrs⟩ := rsmProgramPushInstr_items pushed done
          exact @Pass.instr parser program parser' program' ⟨opcode, opr1, opr2⟩ type operands
            ends check labels instrs

theorem parseLabel_pass {name : RsmIdent} (type : parser.token.type = .ident name)
    (h : (parseLabel realloc name (rsmParserAdvance parser.lexer).val program).val =
      (ret, parser', program'))
    (ok : ret ≠ -1) : Pass parser program parser' program' := by
  unfold parseLabel at h
  split at h
  · next colon =>
    split at h
    · cases h
      exact absurd rfl ok
    · next fits =>
      rw [Traced.val_bind] at h
      rcases pushed : (rsmProgramPushLabel realloc program
        ⟨name, BitVec.ofNat 16 program.instrs.items.length⟩).val with ⟨ret', program''⟩
      rw [pushed] at h
      dsimp only at h
      split at h
      · cases h
        exact absurd rfl ok
      · next done =>
        cases h
        obtain ⟨instrs, labels⟩ := rsmProgramPushLabel_items pushed done
        exact .label type colon rfl (Nat.not_lt.mp fits) instrs labels
  · cases h
    exact absurd rfl ok

/-- **The inversion of a pass.** -/
theorem parseLine_pass
    (h : (parseLine realloc parser program).val = (ret, parser', program')) (ok : ret ≠ -1) :
    Pass parser program parser' program' := by
  unfold parseLine at h
  split at h
  · cases h
    exact absurd rfl ok
  · next name type =>
    exact parseLabel_pass type h ok
  · next opcode type =>
    rw [Traced.val_bind] at h
    rcases parsed : (rsmParserParseOpcode realloc opcode parser program).val with
      ⟨ret', parser'', program''⟩
    rw [parsed] at h
    dsimp only at h
    split at h
    · cases h
      exact absurd rfl ok
    · next done =>
      cases h
      exact rsmParserParseOpcode_pass type parsed done
  · next type =>
    cases h
    exact .newline type rfl rfl
  · cases h
    exact absurd rfl ok

/-- A pass that succeeds calls the tokenizer and builds on the program. -/
structure LineOk (parser : RsmParser) (program : RsmProgram) (parser' : RsmParser)
    (program' : RsmProgram) : Prop where
  moves : TransGen RsmParser.Next parser parser'
  builds : Builds program program'

theorem Pass.lineOk (pass : Pass parser program parser' program') :
    LineOk parser program parser' program' := by
  have next : parser.Next (rsmParserAdvance parser.lexer).val := rfl
  cases pass with
  | newline type moved same =>
    subst moved same
    exact ⟨.single next, .nothing⟩
  | label type colon moved fits instrs labels =>
    subst moved
    exact ⟨(TransGen.single next).tail rfl, .label fits instrs labels⟩
  | @instr instr type operands ends check labels instrs =>
    have moves := parseOperands_moves instr.opcode (rsmParserAdvance parser.lexer).val
    have given := @parseOperands_ne instr.opcode (rsmParserAdvance parser.lexer).val
    rw [operands] at moves given
    exact ⟨TransGen.head' next moves, .instr ⟨check, (given rfl).1, (given rfl).2⟩ labels instrs⟩

/-- A pass at an invalid token fails. -/
theorem parseLine_invalid (h : parser.token.type = .invalid) :
    (parseLine realloc parser program).val.1 = -1 := by
  unfold parseLine
  rw [h]
  rfl

end Line

/-! ## Runs of the main loop -/

/-- The main loop does not run out of fuel. -/
theorem parseLoop_isSome {realloc : Nat → Bool} {fuel : Nat} {parser : RsmParser}
    {program : RsmProgram}
    (enough : (parser.token.type.stops = true ∧ 1 ≤ fuel) ∨ parser.lexer.left + 2 ≤ fuel) :
    (parseLoop realloc fuel parser program).val.isSome = true := by
  induction fuel generalizing parser program with
  | zero => omega
  | succ fuel ih =>
    rw [parseLoop]
    split
    · rfl
    · next eof =>
      have invalid := @parseLine_invalid realloc parser program
      rw [Traced.val_bind]
      rcases passed : (parseLine realloc parser program).val with ⟨ret, parser', program'⟩
      rw [passed] at invalid
      dsimp only at invalid ⊢
      split
      · rfl
      · next ok =>
        refine ih ?_
        have running : ¬ parser.token.type.stops = true := by
          intro stops
          cases type : parser.token.type with
          | eof => exact eof type
          | invalid => exact ok (invalid type)
          | _ =>
            rw [type] at stops
            cases stops
        have left : parser.lexer.left + 2 ≤ fuel + 1 :=
          enough.resolve_left fun stopped => running stopped.1
        have moves := (parseLine_pass passed ok).lineOk.moves
        rcases (RsmParser.left_of_transGen moves).2 with stops | less
        · exact .inl ⟨stops, by omega⟩
        · exact .inr (by omega)

theorem rsmParserParse_isSome (realloc : Nat → Bool) (lexer : RsmLexer) (program : RsmProgram) :
    (rsmParserParse realloc lexer program).val.isSome = true := by
  have left : lexer.left ≤ lexer.src.length := by
    rw [RsmLexer.left, RsmLexer.rest, List.length_drop]
    exact Nat.sub_le _ _
  have first := (rsmLexerTokenize_left lexer).1
  refine parseLoop_isSome (.inr ?_)
  show (rsmLexerTokenize lexer).val.2.left + 2 ≤ lexer.src.length + 2
  omega

/-- A successful parse builds its program pass by pass. -/
theorem parseLoop_builds {realloc : Nat → Bool} {fuel : Nat} {parser : RsmParser}
    {program program' : RsmProgram}
    (h : (parseLoop realloc fuel parser program).val = some (0, program')) :
    ReflTransGen Builds program program' := by
  induction fuel generalizing parser program with
  | zero => cases h
  | succ fuel ih =>
    rw [parseLoop] at h
    split at h
    · cases h
      exact .refl
    · rw [Traced.val_bind] at h
      rcases passed : (parseLine realloc parser program).val with ⟨ret, parser₁, program₁⟩
      rw [passed] at h
      dsimp only at h
      split at h
      · cases h
      · next ok => exact .head (parseLine_pass passed ok).lineOk.builds (ih h)

theorem Parses.builds {realloc : Nat → Bool} {src : List Byte} {program : RsmProgram}
    (h : Parses realloc src program) : ReflTransGen Builds rsmProgramCreate program :=
  parseLoop_builds h

theorem Parses.accepted {realloc : Nat → Bool} {src : List Byte} {program : RsmProgram}
    (h : Parses realloc src program) : ∀ instr ∈ program.instrs.items, Accepted instr := by
  have builds := h.builds
  clear h
  induction builds with
  | refl => simp [rsmProgramCreate, RsmTable.create]
  | tail _ last ih =>
    intro instr mem
    cases last with
    | nothing => exact ih instr mem
    | instr accepted _ instrs =>
      rw [instrs] at mem
      rcases List.mem_append.mp mem with mem | mem
      · exact ih instr mem
      · rw [List.mem_singleton.mp mem]
        exact accepted
    | label _ instrs _ =>
      rw [instrs] at mem
      exact ih instr mem

end RocketVm
