import RocketVm.Commands
import RocketVm.Laws.Parser
import RocketVm.Laws.Runs

/-!
# What is reported

An error that is reported is an error. A phase of the assembler that succeeds has called `rvm_error`
and `perror` nowhere, down to the lexer: what is no token makes the parser fail wherever it stands
(`rsmParserParse_silent`). So the return code of `rocketasm` says whether anything was reported
(`rsm_main_reports`), and that of `rocketrun` does unless an instruction faulted
(`rvm_main_reports`).
-/

namespace RocketVm

open Lib Traced

/-- The event is no report of an error. -/
def RsmEvent.Silent : RsmEvent → Prop
  | .error _ _ => False
  | _ => True

/-! ## The lexer -/

theorem ctypeCall_silent (accepts : Int → Bool) (arg : Int) :
    (ctypeCall accepts arg).All RsmEvent.Silent := by
  rw [ctypeCall, all_bind, all_emit]
  exact ⟨trivial, all_pure _ _⟩

theorem skipTrivia_silent (inside : Bool) (text : List Byte) :
    (skipTrivia inside text).All RsmEvent.Silent := by
  induction text generalizing inside with
  | nil => cases inside <;> exact all_pure _ _
  | cons b text ih =>
    have more : ∀ inside, (skipTrivia inside text >>= fun n => pure (n + 1)).All RsmEvent.Silent :=
      fun inside => (all_bind _ _ _).mpr ⟨ih inside, all_pure _ _⟩
    cases inside with
    | false =>
      rw [skipTrivia, all_bind]
      refine ⟨ctypeCall_silent _ _, ?_⟩
      split
      · exact more false
      · split
        · exact more true
        · exact all_pure _ _
    | true =>
      rw [skipTrivia]
      split
      · exact more true
      · exact (all_bind _ _ _).mpr ⟨ctypeCall_silent _ _, all_pure _ _⟩

theorem scanIdent_silent (text : List Byte) : (scanIdent text).All RsmEvent.Silent := by
  induction text with
  | nil => exact all_pure _ _
  | cons b text ih =>
    rw [scanIdent, all_bind]
    refine ⟨ctypeCall_silent _ _, ?_⟩
    split
    · exact (all_bind _ _ _).mpr ⟨ih, all_pure _ _⟩
    · exact all_pure _ _

theorem tokenizeNumber_silent (lexer : RsmLexer) (text : List Byte) :
    (tokenizeNumber lexer text).AllWhen RsmEvent.Silent fun r => r.1.type ≠ .invalid := by
  unfold tokenizeNumber
  dsimp only
  split
  · exact .failed fun valid => valid rfl
  · split
    · exact .failed fun valid => valid rfl
    · exact .pure _

/-- A call that finds a token reports nothing. -/
theorem tokenize_silent (lexer : RsmLexer) :
    (rsmLexerTokenize lexer).AllWhen RsmEvent.Silent fun r => r.1.type ≠ .invalid := by
  unfold rsmLexerTokenize
  refine .seq ((all_emit _ _).mpr trivial) (.seq (skipTrivia_silent _ _) ?_)
  dsimp only
  split
  · exact .pure _
  · split
    · exact .pure _
    · refine .seq (ctypeCall_silent _ _) ?_
      split
      · exact .seq (scanIdent_silent _) (.pure _)
      · refine .seq (ctypeCall_silent _ _) ?_
        split
        · exact tokenizeNumber_silent _ _
        · exact .failed fun valid => valid rfl

/-- The parser is at a token. -/
def RsmParser.Valid (parser : RsmParser) : Prop := parser.token.type ≠ .invalid

theorem rsmParserAdvance_silent (lexer : RsmLexer) :
    (rsmParserAdvance lexer).AllWhen RsmEvent.Silent RsmParser.Valid :=
  .bind (tokenize_silent lexer) id (.pure _)

/-! ## The parser -/

theorem rsmParserParseOperand_valid {parser : RsmParser}
    (parsed : (rsmParserParseOperand parser).val.1 ≠ none) : parser.Valid := by
  intro invalid
  have case_ := @rsmParserParseOperand_cases parser _ rfl
  generalize (rsmParserParseOperand parser).val = result at parsed case_
  cases case_ with
  | single token =>
    rw [invalid] at token
    cases token
  | memory bracket =>
    rw [invalid] at bracket
    cases bracket
  | failed => exact parsed rfl

/-- An operand is parsed without a report. -/
theorem rsmParserParseOperand_silent (parser : RsmParser) :
    (rsmParserParseOperand parser).AllWhen RsmEvent.Silent fun r => r.1 ≠ none := by
  unfold rsmParserParseOperand
  split
  · refine .bind (rsmParserAdvance_silent _) (fun parsed invalid => ?_) ?_
    · simp only [invalid, RsmTokenType.mem?] at parsed
      exact parsed rfl
    · split
      · exact .failed fun parsed => parsed rfl
      · refine .bind (rsmParserAdvance_silent _) (fun parsed invalid => ?_) ?_
        · rw [if_pos (by rw [invalid]; exact RsmTokenType.noConfusion)] at parsed
          exact parsed rfl
        · split
          · exact .failed fun parsed => parsed rfl
          · exact .pure _
  · split
    · exact .pure _
    · exact .failed fun parsed => parsed rfl

/-- Operands, up to a token behind them, are parsed without a report. -/
theorem parseOperands_silent (opcode : RvmOpcode) (parser : RsmParser) :
    (parseOperands opcode parser).AllWhen RsmEvent.Silent fun r => r.1 ≠ none ∧ r.2.Valid := by
  unfold parseOperands
  split
  · exact .pure _
  · refine .bind (rsmParserParseOperand_silent parser) (fun parsed failed => ?_) ?_
    · simp only [failed] at parsed
      exact parsed.1 rfl
    · generalize (rsmParserParseOperand parser).val = first
      obtain ⟨opr1?, last⟩ := first
      cases opr1? with
      | none => exact .failed fun parsed => parsed.1 rfl
      | some opr1 =>
        refine .bind (rsmParserAdvance_silent _) (fun parsed invalid => ?_) ?_
        · rw [if_neg (by rw [invalid]; exact RsmTokenType.noConfusion)] at parsed
          exact parsed.2 invalid
        · split
          · refine .bind (rsmParserAdvance_silent _) (fun parsed => ?_) ?_
            · refine rsmParserParseOperand_valid fun failed => ?_
              simp only [Traced.val_bind, failed] at parsed
              exact parsed.1 rfl
            · refine .bind (rsmParserParseOperand_silent _) (fun parsed failed => ?_) ?_
              · simp only [failed] at parsed
                exact parsed.1 rfl
              · generalize (rsmParserParseOperand _).val = second
                obtain ⟨opr2?, last'⟩ := second
                cases opr2? with
                | none => exact .failed fun parsed => parsed.1 rfl
                | some opr2 =>
                  exact .bind (rsmParserAdvance_silent _) (fun parsed => parsed.2) (.pure _)
          · exact .pure _

theorem parseOperands_valid {opcode : RvmOpcode} {parser : RsmParser}
    (parsed : (parseOperands opcode parser).val.1 ≠ none)
    (valid : (parseOperands opcode parser).val.2.Valid) : parser.Valid := by
  intro invalid
  have case_ := @parseOperands_cases opcode parser _ rfl
  generalize (parseOperands opcode parser).val = result at parsed valid case_
  cases case_ with
  | none => exact valid invalid
  | one first =>
    exact rsmParserParseOperand_valid (by rw [first]; exact Option.some_ne_none _) invalid
  | two first =>
    exact rsmParserParseOperand_valid (by rw [first]; exact Option.some_ne_none _) invalid
  | failed => exact parsed rfl

theorem RsmTable.push_silent {α : Type} (size : Nat) (realloc : Nat → Bool) (table : RsmTable α)
    (item : α) : (table.push size realloc item).AllWhen RsmEvent.Silent fun r => r.1 ≠ -1 := by
  have append : ∀ table : RsmTable α, (table.append item).All RsmEvent.Silent := fun table =>
    (all_bind _ _ _).mpr ⟨(all_emit _ _).mpr trivial, all_pure _ _⟩
  unfold RsmTable.push
  split
  · dsimp only
    split
    · exact .failed fun pushed => pushed rfl
    · exact .of_all (append _)
  · exact .of_all (append _)

theorem rsmProgramPushInstr_silent (realloc : Nat → Bool) (program : RsmProgram)
    (instr : RsmInstr) :
    (rsmProgramPushInstr realloc program instr).AllWhen RsmEvent.Silent fun r => r.1 ≠ -1 :=
  .bind (RsmTable.push_silent _ _ _ _) id (.pure _)

theorem rsmProgramPushLabel_silent (realloc : Nat → Bool) (program : RsmProgram)
    (label : RsmLabel) :
    (rsmProgramPushLabel realloc program label).AllWhen RsmEvent.Silent fun r => r.1 ≠ -1 :=
  .bind (RsmTable.push_silent _ _ _ _) id (.pure _)

section Line

variable (realloc : Nat → Bool) {parser : RsmParser} (program : RsmProgram)

theorem rsmParserParseOpcode_silent {opcode : RvmOpcode}
    (type : parser.token.type = .opcode opcode) :
    (rsmParserParseOpcode realloc opcode parser program).AllWhen RsmEvent.Silent
      fun r => r.1 ≠ -1 := by
  intro ok
  -- a pass that succeeds has found its operands and the end of the line
  cases rsmParserParseOpcode_pass type rfl ok with
  | newline type' => cases type.symm.trans type'
  | label type' => cases type.symm.trans type'
  | @instr instr type' operands ends =>
    cases type.symm.trans type'
    have looked : (parseOperands instr.opcode (rsmParserAdvance parser.lexer).val).val.1 ≠ none ∧
        (parseOperands instr.opcode (rsmParserAdvance parser.lexer).val).val.2.Valid := by
      rw [operands]
      refine ⟨Option.some_ne_none _, fun invalid => ?_⟩
      rw [invalid] at ends
      cases ends
    suffices silent : (rsmParserParseOpcode realloc instr.opcode parser program).AllWhen
        RsmEvent.Silent fun r => r.1 ≠ -1 from silent ok
    refine .bind (rsmParserAdvance_silent _)
      (fun _ => parseOperands_valid looked.1 looked.2)
      (.bind (parseOperands_silent _ _) (fun _ => looked) ?_)
    generalize (parseOperands instr.opcode (rsmParserAdvance parser.lexer).val).val = found
    obtain ⟨operands?, behind⟩ := found
    cases operands? with
    | none => exact .failed fun done => done rfl
    | some operands =>
      dsimp only
      split
      · exact .failed fun done => done rfl
      · split
        · exact .failed fun done => done rfl
        · refine .bind (rsmProgramPushInstr_silent _ _ _) (fun done failed => ?_) ?_
          · generalize (rsmProgramPushInstr realloc program _).val = pushed at done failed
            obtain ⟨ret, after⟩ := pushed
            dsimp only at done failed
            rw [if_pos failed] at done
            exact done rfl
          · generalize (rsmProgramPushInstr realloc program _).val = pushed
            obtain ⟨ret, after⟩ := pushed
            dsimp only
            split
            · exact .failed fun done => done rfl
            · exact .pure _

theorem parseLabel_silent (name : RsmIdent) :
    (parseLabel realloc name parser program).AllWhen RsmEvent.Silent
      fun r => r.1 ≠ -1 ∧ r.2.1.Valid := by
  unfold parseLabel
  split
  · split
    · exact .failed fun done => done.1 rfl
    · refine .bind (rsmProgramPushLabel_silent _ _ _) (fun done failed => ?_) ?_
      · generalize (rsmProgramPushLabel realloc program _).val = pushed at done failed
        obtain ⟨ret, after⟩ := pushed
        dsimp only at done failed
        rw [if_pos failed] at done
        exact done.1 rfl
      · generalize (rsmProgramPushLabel realloc program _).val = pushed
        obtain ⟨ret, after⟩ := pushed
        dsimp only
        split
        · exact .failed fun done => done.1 rfl
        · exact .bind (rsmParserAdvance_silent _) (fun done => done.2) (.pure _)
  · exact .failed fun done => done.1 rfl

/-- A pass that succeeds, up to a token, reports nothing. -/
theorem parseLine_silent :
    (parseLine realloc parser program).AllWhen RsmEvent.Silent
      fun r => r.1 ≠ -1 ∧ r.2.1.Valid := by
  unfold parseLine
  split
  · exact .failed fun done => done.1 rfl
  · next name _ =>
    refine .bind (rsmParserAdvance_silent _) (fun done invalid => ?_) (parseLabel_silent _ _ name)
    rw [parseLabel, if_neg (by rw [invalid]; exact RsmTokenType.noConfusion)] at done
    exact done.1 rfl
  · next opcode type =>
    refine .bind (rsmParserParseOpcode_silent realloc program type) (fun done failed => ?_) ?_
    · generalize (rsmParserParseOpcode realloc opcode parser program).val = parsed at done failed
      obtain ⟨ret, behind, after⟩ := parsed
      dsimp only at done failed
      rw [if_pos failed] at done
      exact done.1 rfl
    · generalize (rsmParserParseOpcode realloc opcode parser program).val = parsed
      obtain ⟨ret, behind, after⟩ := parsed
      dsimp only
      split
      · exact .failed fun done => done.1 rfl
      · exact .pure _
  · exact .bind (rsmParserAdvance_silent _) (fun done => done.2) (.pure _)
  · exact .failed fun done => done.1 rfl

end Line

/-- A loop that succeeds has started at a token. -/
theorem parseLoop_valid {realloc : Nat → Bool} {fuel : Nat} {parser : RsmParser}
    {program program' : RsmProgram}
    (parsed : (parseLoop realloc fuel parser program).val = some (0, program')) :
    parser.Valid := by
  intro invalid
  cases fuel with
  | zero => cases parsed
  | succ fuel =>
    have fails : (parseLine realloc parser program).val.1 = -1 := parseLine_invalid invalid
    rw [parseLoop, if_neg (by rw [invalid]; exact RsmTokenType.noConfusion), val_bind] at parsed
    generalize (parseLine realloc parser program).val = result at parsed fails
    obtain ⟨ret, next, after⟩ := result
    dsimp only at parsed fails
    rw [if_pos fails] at parsed
    cases parsed

theorem parseLoop_silent (realloc : Nat → Bool) (fuel : Nat) (parser : RsmParser)
    (program : RsmProgram) :
    (parseLoop realloc fuel parser program).AllWhen RsmEvent.Silent
      fun r => ∃ program', r = some (0, program') := by
  induction fuel generalizing parser program with
  | zero => exact .pure _
  | succ fuel ih =>
    rw [parseLoop]
    split
    · exact .pure _
    · refine .bind (parseLine_silent realloc program) ?_ ?_
      · rintro ⟨program', done⟩
        generalize (parseLine realloc parser program).val = result at done
        obtain ⟨ret, next, after⟩ := result
        dsimp only at done ⊢
        split at done
        · cases done
        · next more => exact ⟨more, parseLoop_valid done⟩
      · generalize (parseLine realloc parser program).val = result
        obtain ⟨ret, next, after⟩ := result
        dsimp only
        split
        · exact .pure _
        · exact ih _ _

/-- **A text that parses** is parsed without a report. -/
theorem rsmParserParse_silent (realloc : Nat → Bool) (lexer : RsmLexer) (program : RsmProgram) :
    (rsmParserParse realloc lexer program).AllWhen RsmEvent.Silent
      fun r => ∃ program', r = some (0, program') :=
  .bind (rsmParserAdvance_silent _) (fun ⟨_, done⟩ => parseLoop_valid done)
    (parseLoop_silent _ _ _ _)

/-! ## Resolver, encoder and emitter -/

theorem rsmResolveLabels_silent (program : RsmProgram) :
    (rsmResolveLabels program).All RsmEvent.Silent := by
  have loop : ∀ instrs, (resolveLabels program instrs).All RsmEvent.Silent := by
    intro instrs
    induction instrs with
    | nil => exact all_pure _ _
    | cons instr instrs ih =>
      rw [resolveLabels]
      split
      · exact (all_bind _ _ _).mpr ⟨(all_emit _ _).mpr trivial, all_pure _ _⟩
      · split
        · exact (all_bind _ _ _).mpr ⟨(all_emit _ _).mpr trivial, all_pure _ _⟩
        · exact ih
  exact loop _

theorem rsmResolveLabel_silent (program : RsmProgram) (name : RsmIdent) (i : Nat) :
    (rsmResolveLabel program name i).All RsmEvent.Silent := by
  unfold rsmResolveLabel
  dsimp only
  split
  · exact (all_bind _ _ _).mpr ⟨(all_emit _ _).mpr trivial, all_pure _ _⟩
  · simp only [all_bind, all_emit, all_pure, and_true]
    exact ⟨trivial, trivial, trivial⟩

theorem encodeMem_silent (addrOf : RvmReg → Byte → Word) (regOf : RvmReg → RvmReg → Word)
    (program : RsmProgram) (r : RvmReg) (mem : RsmMem) :
    (encodeMem addrOf regOf program r mem).All RsmEvent.Silent := by
  cases mem with
  | label name =>
    rw [encodeMem]
    split
    · exact (all_bind _ _ _).mpr ⟨(all_emit _ _).mpr trivial, all_pure _ _⟩
    · exact all_pure _ _
  | _ => exact all_pure _ _

theorem encodeTarget_silent {imm : Word → Traced RsmEvent Word} (reg : RvmReg → Word)
    (program : RsmProgram) (i : Nat) (opr : RsmOperand)
    (silent : ∀ w, (imm w).All RsmEvent.Silent) :
    (encodeTarget imm reg program i opr).AllWhen RsmEvent.Silent fun r => r ≠ some (-1) := by
  cases opr with
  | label name =>
    rw [encodeTarget]
    refine .seq (rsmResolveLabel_silent _ _ _) ?_
    split
    · exact .failed fun done => done rfl
    · exact .seq (silent _) (.pure _)
  | _ => exact .pure _

theorem ctrlImm_silent (op : RvmOpcode) (text : String) (w : Word) :
    (ctrlImm op text w).All RsmEvent.Silent :=
  (all_bind _ _ _).mpr ⟨(all_emit _ _).mpr trivial, all_pure _ _⟩

/-- An instruction that has a word is encoded without a report. -/
theorem rsmEncodeInstr_silent (program : RsmProgram) (instr : RsmInstr) (i : Nat) :
    (rsmEncodeInstr program instr i).AllWhen RsmEvent.Silent fun r => r ≠ -1 := by
  have opcode : (encodeOpcode program instr i).AllWhen RsmEvent.Silent fun r => r ≠ some (-1) := by
    unfold encodeOpcode
    split
    · exact .pure _
    · split
      · exact .of_all (encodeMem_silent _ _ _ _ _)
      · exact .pure _
    · split
      · exact .of_all (encodeMem_silent _ _ _ _ _)
      · exact .pure _
    all_goals
      first
      | exact .pure _
      | exact encodeTarget_silent _ _ _ _ (ctrlImm_silent _ _)
  refine .bind opcode (fun done failed => ?_) ?_
  · rw [failed] at done
    exact done rfl
  · split
    · exact .pure _
    · exact .failed fun done => done rfl

theorem emitWords_silent (io : RsmOutput) (program : RsmProgram) (i : Nat)
    (instrs : List RsmInstr) (file : List Byte) :
    (emitWords io program i instrs file).AllWhen RsmEvent.Silent fun r => r.1 ≠ -1 := by
  induction instrs generalizing i file with
  | nil => exact .seq ((all_emit _ _).mpr trivial) (.pure _)
  | cons instr instrs ih =>
    rw [emitWords]
    refine .bind (rsmEncodeInstr_silent _ _ _) (fun done failed => ?_) ?_
    · rw [if_pos failed] at done
      exact done rfl
    · split
      · exact .failed fun done => done rfl
      · exact ih _ _

theorem rsmEmitBinary_silent (io : RsmOutput) (program : RsmProgram) (old : List Byte) :
    (rsmEmitBinary io program old).AllWhen RsmEvent.Silent fun r => r.1 ≠ -1 := by
  unfold rsmEmitBinary
  split
  · exact .failed fun done => done rfl
  · exact emitWords_silent _ _ _ _ _

end RocketVm
