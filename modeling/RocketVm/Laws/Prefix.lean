import RocketVm.Laws.Grammar

/-!
# What a parse leaves behind

The parser takes the longest run of complete lines that a text begins with: on an error the program
holds exactly the items before the place it stopped at, and with an allocator that provides it
stops at nothing it could have taken. Memory running out can only make a parse end earlier.
-/

namespace RocketVm

open Lib

/-- The items are those of the tokens in front of `rest`, unit after unit. -/
inductive Consumes (valid : RsmInstr → Prop) :
    List RsmTokenType → List RsmItem → List RsmTokenType → Prop
  | nothing {ts} : Consumes valid ts [] ts
  | unit {ts first ts' items rest} (takes : Takes valid ts first ts')
      (more : Consumes valid ts' items rest) : Consumes valid ts (first ++ items) rest

section Consumes

variable {valid : RsmInstr → Prop} {ts rest : List RsmTokenType} {items : List RsmItem}

theorem Consumes.sentence (h : Consumes valid ts items []) : Sentence valid ts items := by
  generalize none : ([] : List RsmTokenType) = rest at h
  induction h with
  | nothing =>
    subst none
    exact .done
  | unit takes _ ih => exact takes.sentence (ih none)

theorem Sentence.consumes (h : Sentence valid ts items) : Consumes valid ts items [] := by
  have unit : ∀ {ts first ts' items}, Takes valid ts first ts' → Consumes valid ts' items [] →
      Consumes valid ts (first ++ items) [] := fun takes more => .unit takes more
  induction h with
  | done => exact .nothing
  | newline _ ih => exact unit .newline ih
  | label name _ ih => exact unit (.label name) ih
  | instr ok ends _ ih => exact unit (.instr ok ends) ih

end Consumes

/-! ## Lines that fail -/

section Line

variable {realloc : Nat → Bool} {parser parser' : RsmParser} {program program' : RsmProgram}
  {ret : Int}

theorem rsmProgramPushInstr_failed {instr : RsmInstr}
    (h : (rsmProgramPushInstr realloc program instr).val = (-1, program')) :
    program' = program := by
  have step := (program.push_step (.instr realloc instr)).appends
  rw [show program.push (.instr realloc instr) = rsmProgramPushInstr realloc program instr from rfl,
    h] at step
  exact (step.resolve_right fun pushed => by cases pushed.1).2

theorem rsmProgramPushLabel_failed {label : RsmLabel}
    (h : (rsmProgramPushLabel realloc program label).val = (-1, program')) :
    program' = program := by
  have step := (program.push_step (.label realloc label)).appends
  rw [show program.push (.label realloc label) = rsmProgramPushLabel realloc program label from rfl,
    h] at step
  exact (step.resolve_right fun pushed => by cases pushed.1).2

theorem rsmParserParseOpcode_failed {opcode : RvmOpcode}
    (h : (rsmParserParseOpcode realloc opcode parser program).val = (-1, parser', program')) :
    program' = program := by
  unfold rsmParserParseOpcode at h
  rw [Traced.val_bind, Traced.val_bind] at h
  rcases operands : (parseOperands opcode (rsmParserAdvance parser.lexer).val).val with
    ⟨_ | ⟨opr1, opr2⟩, behind⟩
  · rw [operands] at h
    cases h
    rfl
  · rw [operands] at h
    dsimp only at h
    split at h
    · cases h
      rfl
    · split at h
      · cases h
        rfl
      · rw [Traced.val_bind] at h
        rcases pushed : (rsmProgramPushInstr realloc program ⟨opcode, opr1, opr2⟩).val with
          ⟨ret, program''⟩
        rw [pushed] at h
        dsimp only at h
        split at h
        · next failed =>
          cases h
          subst failed
          exact rsmProgramPushInstr_failed pushed
        · cases h

theorem parseLabel_failed {name : RsmIdent}
    (h : (parseLabel realloc name parser program).val = (-1, parser', program')) :
    program' = program := by
  unfold parseLabel at h
  split at h
  · split at h
    · cases h
      rfl
    · rw [Traced.val_bind] at h
      rcases pushed : (rsmProgramPushLabel realloc program
        ⟨name, BitVec.ofNat 16 program.instrs.items.length⟩).val with ⟨ret, program''⟩
      rw [pushed] at h
      dsimp only at h
      split at h
      · next failed =>
        cases h
        subst failed
        exact rsmProgramPushLabel_failed pushed
      · cases h
  · cases h
    rfl

/-- A pass that fails leaves the program as it was. -/
theorem parseLine_failed
    (h : (parseLine realloc parser program).val = (-1, parser', program')) :
    program' = program := by
  unfold parseLine at h
  split at h
  · cases h
    rfl
  · exact parseLabel_failed h
  · rw [Traced.val_bind] at h
    rcases parsed : (rsmParserParseOpcode realloc _ parser program).val with
      ⟨ret, parser'', program''⟩
    rw [parsed] at h
    dsimp only at h
    split at h
    · next failed =>
      cases h
      subst failed
      exact rsmParserParseOpcode_failed parsed
    · cases h
  · cases h
  · cases h
    rfl

end Line

/-! ## The run -/

section Run

variable {realloc : Nat → Bool} {fuel : Nat} {parser : RsmParser} {program program' : RsmProgram}
  {ret : Int} {ts : List RsmTokenType}

/-- Nothing more can be taken: whatever the tokens begin with is a label too far down. -/
def Stuck (program : RsmProgram) (ts : List RsmTokenType) : Prop :=
  ∀ first ts', Takes Accepted ts first ts' →
    ∃ name, first = [.label name] ∧ UINT16_MAX < program.instrs.items.length

/-- How a parse with the tokens `ts` ahead ends: with what it took and what is left. -/
structure ParseEnds (realloc : Nat → Bool) (program : RsmProgram) (ts : List RsmTokenType)
    (ret : Int) (program' : RsmProgram) (items : List RsmItem) (rest : List RsmTokenType) :
    Prop where
  consumes : Consumes Accepted ts items rest
  extends_ : Extends program items program'
  ends : ret = 0 ∧ rest = [] ∨ ret = -1 ∧ rest ≠ []
  stuck : (∀ n, realloc n = true) → ret = -1 → Stuck program' rest

theorem parseLoop_ends (h : Reads parser ts)
    (run : (parseLoop realloc fuel parser program).val = some (ret, program')) :
    ∃ items rest, ParseEnds realloc program ts ret program' items rest := by
  induction fuel generalizing parser program ts with
  | zero => cases run
  | succ fuel ih =>
    rw [parseLoop] at run
    split at run
    · next eof =>
      cases run
      obtain rfl := h.unique (show Reads parser [] from eof)
      exact ⟨[], [], .nothing, .refl _, .inl ⟨rfl, rfl⟩, fun _ failed => absurd failed (by decide)⟩
    · next more =>
      rw [Traced.val_bind] at run
      rcases passed : (parseLine realloc parser program).val with ⟨ret₁, parser₁, program₁⟩
      rw [passed] at run
      dsimp only at run
      split at run
      · next failed =>
        subst failed
        cases run
        obtain rfl := parseLine_failed passed
        refine ⟨[], ts, .nothing, .refl _, .inr ⟨rfl, ?_⟩, fun provides _ first ts' takes => ?_⟩
        · rintro rfl
          exact more h
        · -- a pass fails only where it cannot take anything
          by_contra none
          have fits : ∀ name, first = [.label name] →
              program'.instrs.items.length ≤ UINT16_MAX := fun name same =>
            Nat.not_lt.mp fun large => none ⟨name, same, large⟩
          obtain ⟨_, _, taken, _⟩ := parseLine_takes_of_fits provides fits takes h
          cases passed.symm.trans taken
      · next ok =>
        obtain ⟨first, ts', takes, behind, extends_⟩ := (parseLine_pass passed ok).takes h
        obtain ⟨items, rest, ends⟩ := ih behind run
        exact ⟨first ++ items, rest, .unit takes ends.consumes, extends_.trans ends.extends_,
          ends.ends, ends.stuck⟩

end Run

/-- **What a parse leaves behind.** Whatever the text and the allocator do, the program holds the
items of the lines before the place where the parser stopped: 0 is returned at the end of the text
and -1 anywhere else. With an allocator that provides, nothing more could be taken there. -/
theorem parse_leaves_prefix (realloc : Nat → Bool) (src : List Byte) :
    ∃ ret program items rest,
      (rsmParserParse realloc (rsmLexerCreate src) rsmProgramCreate).val = some (ret, program) ∧
      ParseEnds realloc rsmProgramCreate (sourceTokens src) ret program items rest := by
  have some_ := rsmParserParse_isSome realloc (rsmLexerCreate src) rsmProgramCreate
  obtain ⟨⟨ret, program⟩, run⟩ := Option.isSome_iff_exists.mp some_
  obtain ⟨items, rest, ends⟩ := parseLoop_ends (reads_sourceTokens src) run
  exact ⟨ret, program, items, rest, run, ends⟩

/-! ## Allocation -/

section Allocation

variable {realloc : Nat → Bool} {parser parser' : RsmParser} {program program' : RsmProgram}
  {ret : Int}

/-- A push that succeeds does what it does with an allocator that provides. -/
theorem RsmTable.push_provided {α : Type} {size : Nat} {table table' : RsmTable α} {item : α}
    (h : (table.push size realloc item).val = (ret, table')) (ok : ret ≠ -1) :
    (table.push size (fun _ => true) item).val = (ret, table') := by
  unfold RsmTable.push at h ⊢
  split at h
  · next full =>
    rw [if_pos full]
    dsimp only at h
    split at h
    · cases h
      exact absurd rfl ok
    · exact h
  · next room =>
    rw [if_neg room]
    exact h

theorem rsmProgramPushInstr_provided {instr : RsmInstr}
    (h : (rsmProgramPushInstr realloc program instr).val = (ret, program')) (ok : ret ≠ -1) :
    (rsmProgramPushInstr (fun _ => true) program instr).val = (ret, program') := by
  unfold rsmProgramPushInstr at h ⊢
  rw [Traced.val_bind] at h ⊢
  rcases pushed : (program.instrs.push RSM_INSTR_SIZE realloc instr).val with ⟨ret', table⟩
  rw [pushed] at h
  cases h
  rw [RsmTable.push_provided pushed ok]
  rfl

theorem rsmProgramPushLabel_provided {label : RsmLabel}
    (h : (rsmProgramPushLabel realloc program label).val = (ret, program')) (ok : ret ≠ -1) :
    (rsmProgramPushLabel (fun _ => true) program label).val = (ret, program') := by
  unfold rsmProgramPushLabel at h ⊢
  rw [Traced.val_bind] at h ⊢
  rcases pushed : (program.labels.push RSM_LABEL_SIZE realloc label).val with ⟨ret', table⟩
  rw [pushed] at h
  cases h
  rw [RsmTable.push_provided pushed ok]
  rfl

theorem rsmParserParseOpcode_provided {opcode : RvmOpcode}
    (h : (rsmParserParseOpcode realloc opcode parser program).val = (ret, parser', program'))
    (ok : ret ≠ -1) :
    (rsmParserParseOpcode (fun _ => true) opcode parser program).val =
      (ret, parser', program') := by
  unfold rsmParserParseOpcode at h ⊢
  rw [Traced.val_bind, Traced.val_bind] at h ⊢
  rcases operands : (parseOperands opcode (rsmParserAdvance parser.lexer).val).val with
    ⟨_ | ⟨opr1, opr2⟩, behind⟩
  · rw [operands] at h
    cases h
    exact absurd rfl ok
  · rw [operands] at h
    dsimp only at h ⊢
    split at h
    · cases h
      exact absurd rfl ok
    · next ends =>
      rw [if_neg ends]
      split at h
      · cases h
        exact absurd rfl ok
      · next check =>
        rw [Traced.val_bind] at h
        rcases pushed : (rsmProgramPushInstr realloc program ⟨opcode, opr1, opr2⟩).val with
          ⟨ret', program''⟩
        rw [pushed] at h
        dsimp only at h
        split at h
        · cases h
          exact absurd rfl ok
        · next done =>
          rw [Traced.val_bind, rsmProgramPushInstr_provided pushed done]
          dsimp only
          rw [if_neg done]
          exact h

theorem parseLabel_provided {name : RsmIdent}
    (h : (parseLabel realloc name parser program).val = (ret, parser', program'))
    (ok : ret ≠ -1) :
    (parseLabel (fun _ => true) name parser program).val = (ret, parser', program') := by
  unfold parseLabel at h ⊢
  split at h
  · next colon =>
    rw [if_pos colon]
    split at h
    · cases h
      exact absurd rfl ok
    · next fits =>
      rw [if_neg fits]
      rw [Traced.val_bind] at h ⊢
      rcases pushed : (rsmProgramPushLabel realloc program
        ⟨name, BitVec.ofNat 16 program.instrs.items.length⟩).val with ⟨ret', program''⟩
      rw [pushed] at h
      dsimp only at h
      split at h
      · cases h
        exact absurd rfl ok
      · next done =>
        rw [rsmProgramPushLabel_provided pushed done]
        dsimp only
        rw [if_neg done]
        exact h
  · cases h
    exact absurd rfl ok

theorem parseLine_provided
    (h : (parseLine realloc parser program).val = (ret, parser', program')) (ok : ret ≠ -1) :
    (parseLine (fun _ => true) parser program).val = (ret, parser', program') := by
  unfold parseLine at h ⊢
  cases type : parser.token.type with
  | ident name =>
    rw [type] at h
    exact parseLabel_provided h ok
  | opcode opcode =>
    rw [type] at h
    dsimp only at h ⊢
    rw [Traced.val_bind] at h ⊢
    rcases parsed : (rsmParserParseOpcode realloc opcode parser program).val with
      ⟨ret', parser'', program''⟩
    rw [parsed] at h
    dsimp only at h
    split at h
    · cases h
      exact absurd rfl ok
    · next done =>
      rw [rsmParserParseOpcode_provided parsed done]
      dsimp only
      rw [if_neg done]
      exact h
  | _ =>
    rw [type] at h
    exact h

theorem parseLoop_provided {fuel : Nat}
    (h : (parseLoop realloc fuel parser program).val = some (0, program')) :
    (parseLoop (fun _ => true) fuel parser program).val = some (0, program') := by
  induction fuel generalizing parser program with
  | zero => cases h
  | succ fuel ih =>
    rw [parseLoop] at h ⊢
    split at h
    · next eof =>
      rw [if_pos eof]
      exact h
    · next more =>
      rw [if_neg more]
      rw [Traced.val_bind] at h ⊢
      rcases passed : (parseLine realloc parser program).val with ⟨ret, parser₁, program₁⟩
      rw [passed] at h
      dsimp only at h
      split at h
      · cases h
      · next ok =>
        rw [parseLine_provided passed ok]
        dsimp only
        rw [if_neg ok]
        exact ih h

end Allocation

/-- **The texts that parse.** A text is accepted exactly when its tokens are a sentence in which no
label is too far down; and whenever it is accepted, under whatever allocator, the program is the one
that an allocator that never fails leads to. -/
theorem parses_iff_sentence (src : List Byte) :
    ((∃ program, Parses (fun _ => true) src program) ↔
      ∃ items, Sentence Accepted (sourceTokens src) items ∧ LabelsFit 0 items) ∧
    ∀ realloc program, Parses realloc src program → Parses (fun _ => true) src program := by
  refine ⟨⟨?_, ?_⟩, fun realloc program parses => parseLoop_provided parses⟩
  · rintro ⟨program, parses⟩
    obtain ⟨items, sentence, built⟩ := parses.sentence
    exact ⟨items, sentence, built.fits⟩
  · rintro ⟨items, sentence, fits⟩
    obtain ⟨program, parses, _⟩ := sentence.parses_of_fits fits
    exact ⟨program, parses⟩

end RocketVm
