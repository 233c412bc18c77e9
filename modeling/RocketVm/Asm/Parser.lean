import RocketVm.Asm.Program

/-!
# The parser

`rocketasm/parser.c`. A parser takes its token and its lexer along. The main loop is given one
unit of fuel for each pass; `rsmParserParse` starts it with enough.
-/

namespace RocketVm

open Lib

/-- `rsm_parser_t`, with the lexer its functions are called with. -/
structure RsmParser where
  token : RsmToken
  lexer : RsmLexer

def rsmParserAdvance (lexer : RsmLexer) : Traced RsmEvent RsmParser := do
  let (token, lexer) ← rsmLexerTokenize lexer
  return ⟨token, lexer⟩

/-! ## Operands -/

/-- The operand a single token stands for outside brackets. -/
def RsmTokenType.operand? : RsmTokenType → Option RsmOperand
  | .number n => some (.imm n)
  | .reg r => some (.reg r)
  | .ident name => some (.label name)
  | _ => none

/-- What a single token stands for inside brackets. -/
def RsmTokenType.mem? : RsmTokenType → Option RsmMem
  | .number n => some (.imm n)
  | .reg r => some (.reg r)
  | .ident name => some (.label name)
  | _ => none

/-- An operand, or nothing where the C function returns one of type `RSM_OPERAND_INVALID`. -/
def rsmParserParseOperand (parser : RsmParser) :
    Traced RsmEvent (Option RsmOperand × RsmParser) := do
  if parser.token.type = .lbracket then
    let parser ← rsmParserAdvance parser.lexer
    match parser.token.type.mem? with
    | none =>
      Traced.emit (.error "invalid memory operand")
      return (none, parser)
    | some mem =>
      let parser ← rsmParserAdvance parser.lexer
      if parser.token.type ≠ .rbracket then
        Traced.emit (.error "expected ']'")
        return (none, parser)
      else
        return (some (.mem mem), parser)
  else
    match parser.token.type.operand? with
    | some operand => return (some operand, parser)
    | none =>
      Traced.emit (.error "unexpected operand: %d" [.int parser.token.type.code])
      return (none, parser)

/-! ## Instructions -/

/-- A line may end here. -/
def RsmTokenType.endsLine (type : RsmTokenType) : Bool := type == .newline || type == .eof

def RsmOperand.isReg : RsmOperand → Bool
  | .reg _ => true
  | _ => false

def RsmOperand.isImm : RsmOperand → Bool
  | .imm _ => true
  | _ => false

def RsmOperand.isLabel : RsmOperand → Bool
  | .label _ => true
  | _ => false

def RsmOperand.isMem : RsmOperand → Bool
  | .mem _ => true
  | _ => false

/-- The check of the operands of an instruction: the text of the error, if there is one. -/
def operandError (instr : RsmInstr) : Option String :=
  match instr.opcode with
  | .ret =>
    if instr.opr1 ≠ .none ∨ instr.opr2 ≠ .none then some "RET takes no operands" else none
  | .load =>
    if !instr.opr1.isReg || !instr.opr2.isMem then some "LOAD requires: LOAD reg, [addr]" else none
  | .store =>
    if !instr.opr1.isMem || !instr.opr2.isReg then some "STORE requires: STORE [addr], reg"
    else none
  | .add | .sub | .mul | .div | .mod | .shl | .shr | .cmp =>
    if !instr.opr1.isReg then some "ALU ops require destination register"
    else if !(instr.opr2.isReg || instr.opr2.isImm) then some "ALU ops require reg or imm operand"
    else none
  | .mov =>
    if !instr.opr1.isReg || !(instr.opr2.isReg || instr.opr2.isImm) then
      some "MOV requires: MOV reg, reg|imm"
    else none
  | .jmp | .jz | .jnz | .call =>
    if instr.opr1 = .none then some "control flow requires operand"
    else if !(instr.opr1.isLabel || instr.opr1.isReg || instr.opr1.isImm) then
      some "invalid control flow operand"
    else none

/-- The operands of an instruction, up to the token behind them; nothing where one is invalid. -/
def parseOperands (opcode : RvmOpcode) (parser : RsmParser) :
    Traced RsmEvent (Option (RsmOperand × RsmOperand) × RsmParser) := do
  if opcode = .ret || parser.token.type.endsLine then
    return (some (.none, .none), parser)
  else
    let (opr1?, parser) ← rsmParserParseOperand parser
    match opr1? with
    | none => return (none, parser)
    | some opr1 =>
      let parser ← rsmParserAdvance parser.lexer
      if parser.token.type = .comma then
        let parser ← rsmParserAdvance parser.lexer
        let (opr2?, parser) ← rsmParserParseOperand parser
        match opr2? with
        | none => return (none, parser)
        | some opr2 =>
          let parser ← rsmParserAdvance parser.lexer
          return (some (opr1, opr2), parser)
      else
        return (some (opr1, .none), parser)

/-- `rsm_parser_parse_opcode`, at a token of type `RSM_TOKEN_OPCODE` with the given opcode. -/
def rsmParserParseOpcode (realloc : Nat → Bool) (opcode : RvmOpcode) (parser : RsmParser)
    (program : RsmProgram) : Traced RsmEvent (Int × RsmParser × RsmProgram) := do
  let parser ← rsmParserAdvance parser.lexer
  let (operands?, parser) ← parseOperands opcode parser
  match operands? with
  | none => return (-1, parser, program)
  | some (opr1, opr2) =>
    if !parser.token.type.endsLine then
      Traced.emit (.error "unexpected token after instruction")
      return (-1, parser, program)
    else
      match operandError ⟨opcode, opr1, opr2⟩ with
      | some text =>
        Traced.emit (.error text)
        return (-1, parser, program)
      | none =>
        let (ret, program) ← rsmProgramPushInstr realloc program ⟨opcode, opr1, opr2⟩
        if ret = -1 then
          Traced.emit (.error "rsm_program_push_instr failed")
          return (-1, parser, program)
        else
          return (0, parser, program)

/-! ## Programs -/

def UINT16_MAX : Nat := 0xFFFF

/-- A label definition, from the token behind its name on. -/
def parseLabel (realloc : Nat → Bool) (name : RsmIdent) (parser : RsmParser)
    (program : RsmProgram) : Traced RsmEvent (Int × RsmParser × RsmProgram) := do
  if parser.token.type = .colon then
    if program.instrs.items.length > UINT16_MAX then
      Traced.emit (.error "program too large for 16-bit address space")
      return (-1, parser, program)
    else
      let (ret, program) ← rsmProgramPushLabel realloc program
        ⟨name, BitVec.ofNat 16 program.instrs.items.length⟩
      if ret = -1 then
        Traced.emit (.error "rsm_program_push_label failed")
        return (-1, parser, program)
      else
        let parser ← rsmParserAdvance parser.lexer
        return (0, parser, program)
  else
    Traced.emit (.error "rsm_parser_parse unexpected identifier: %*.s" name.args)
    return (-1, parser, program)

/-- One pass of the main loop, at a token other than `RSM_TOKEN_EOF`. -/
def parseLine (realloc : Nat → Bool) (parser : RsmParser) (program : RsmProgram) :
    Traced RsmEvent (Int × RsmParser × RsmProgram) := do
  match parser.token.type with
  | .invalid =>
    Traced.emit (.error "rsm_lexer_token failed")
    return (-1, parser, program)
  | .ident name =>
    let parser ← rsmParserAdvance parser.lexer
    parseLabel realloc name parser program
  | .opcode opcode =>
    let (ret, parser, program) ← rsmParserParseOpcode realloc opcode parser program
    if ret = -1 then
      Traced.emit (.error "rsm_parser_parse_opcode failed")
      return (-1, parser, program)
    else
      return (0, parser, program)
  | .newline =>
    let parser ← rsmParserAdvance parser.lexer
    return (0, parser, program)
  | type =>
    Traced.emit (.info "unexpected token: %s" [.string (rsmTokenTypeToString type)])
    return (-1, parser, program)

/-- The main loop of `rsm_parser_parse`: its return code and the program it leaves, or nothing
when the fuel runs out. -/
def parseLoop (realloc : Nat → Bool) :
    Nat → RsmParser → RsmProgram → Traced RsmEvent (Option (Int × RsmProgram))
  | 0, _, _ => return none
  | fuel + 1, parser, program => do
    if parser.token.type = .eof then
      return some (0, program)
    else
      let (ret, parser, program) ← parseLine realloc parser program
      if ret = -1 then
        return some (-1, program)
      else
        parseLoop realloc fuel parser program

def rsmParserParse (realloc : Nat → Bool) (lexer : RsmLexer) (program : RsmProgram) :
    Traced RsmEvent (Option (Int × RsmProgram)) := do
  let parser ← rsmParserAdvance lexer
  parseLoop realloc (lexer.src.length + 2) parser program

/-- The parser accepts a source text and builds `program` from it. -/
def Parses (realloc : Nat → Bool) (src : List Byte) (program : RsmProgram) : Prop :=
  (rsmParserParse realloc (rsmLexerCreate src) rsmProgramCreate).val = some (0, program)

end RocketVm
