import RocketVm.Laws.Chunks
import RocketVm.Laws.Grammar

/-!
# Lines

A newline is a boundary for the lexer and for the parser. No token reaches across it, so the tokens
of two texts with a newline between them are those of the first, the newline, and those of the
second (`sourceTokens_lines`); and no label definition or instruction does, so the two texts
together are parsed as each is on its own (`sources_join`).
-/

namespace RocketVm

open Lib

/-! ## Words before a line end -/

/-- The text is at the end of a line: it begins with a newline, or there is none left. -/
def AtLineEnd (text : List Byte) : Prop := ∀ b ∈ text.head?, b = chr '\n'

theorem atLineEnd_nil : AtLineEnd [] := forall_head_nil

theorem atLineEnd_newline (text : List Byte) : AtLineEnd (chr '\n' :: text) :=
  fun _ head => (Option.mem_some_iff.mp head).symm

theorem AtLineEnd.wordEnds {tail : List Byte} (line : AtLineEnd tail) : WordEnds tail := by
  intro b head
  rw [line b head]
  decide

theorem WordEnds.append {text tail : List Byte} (ends : WordEnds text) (ends' : WordEnds tail) :
    WordEnds (text ++ tail) := by
  cases text with
  | nil => exact ends'
  | cons b text => exact ends

theorem scanIdent_ends (text : List Byte) {tail : List Byte} (ends : WordEnds tail) :
    (scanIdent (text ++ tail)).val = (scanIdent text).val := by
  obtain ⟨behind, split, ends'⟩ := scanIdent_split text
  conv_lhs => rw [split, List.append_assoc]
  exact scanIdent_append _ (ends'.append ends)

theorem takeWhile_append_stop {α : Type} {p : α → Bool} {l r : List α}
    (stop : ∀ a ∈ r.head?, p a = false) : (l ++ r).takeWhile p = l.takeWhile p := by
  induction l with
  | nil =>
    cases r with
    | nil => rfl
    | cons a r => exact List.takeWhile_cons_of_neg (Bool.eq_false_iff.mp (stop a rfl))
  | cons a l ih =>
    rw [List.cons_append, List.takeWhile_cons, List.takeWhile_cons, ih]

theorem strtolBase_ends (b : Byte) (text : List Byte) {tail : List Byte} (ends : WordEnds tail) :
    strtolBase (b :: (text ++ tail)) = strtolBase (b :: text) := by
  rcases text with _ | ⟨x, _ | ⟨d, ds⟩⟩
  · rcases tail with _ | ⟨x, _ | ⟨d, ds⟩⟩
    · rfl
    · rfl
    · -- what ends the word is not the mark of a hexadecimal number
      have mark : ¬ (x = chr 'x' ∨ x = chr 'X') := by
        have end_ := ends x rfl
        rintro (rfl | rfl) <;> exact absurd end_ (by decide)
      simp only [strtolBase, List.nil_append, mark, false_and, and_false, ↓reduceIte]
  · rcases tail with _ | ⟨d, ds⟩
    · rfl
    · have digit : ¬ digitValue d < 16 := by
        rw [digitValue_of_ends (ends d rfl)]
        decide
      simp only [strtolBase, List.cons_append, List.nil_append, digit, and_false, ↓reduceIte]
  · rfl

/-- A number ends where its word does. -/
theorem strtol_ends (b : Byte) (text : List Byte) {tail : List Byte} (ends : WordEnds tail) :
    strtol (b :: (text ++ tail)) = strtol (b :: text) := by
  obtain ⟨bound, inside, _⟩ := strtolBase_split (b :: text)
  have digits : ∀ base ≤ 36, ∀ skip ≤ (b :: text).length,
      (((b :: (text ++ tail)).drop skip).map digitValue).takeWhile (fun d => decide (d < base)) =
        (((b :: text).drop skip).map digitValue).takeWhile fun d => decide (d < base) := by
    intro base bound skip inside
    have split : (b :: (text ++ tail)).drop skip = (b :: text).drop skip ++ tail :=
      List.drop_append_of_le_length inside
    rw [split, List.map_append]
    refine takeWhile_append_stop fun d head => ?_
    cases tail with
    | nil => cases head
    | cons c tail =>
      cases head
      rw [digitValue_of_ends (ends c rfl)]
      exact decide_eq_false (by omega)
  simp only [strtol, strtolBase_ends b text ends]
  rw [digits _ bound _ inside]

/-! ## Tokens before a line end -/

/-- What two calls of the tokenizer return, the second one on the text of the first with `tail`
behind it: the same token, or at the end of the first text what `tail` begins with. -/
inductive SameToken (tail : List Byte) : RsmToken × RsmLexer → RsmToken × RsmLexer → Prop
  | token {token next next'} (running : token.type ≠ .eof)
      (rest : next'.rest = next.rest ++ tail) : SameToken tail (token, next) (token, next')
  | eof {next next'} (none : tail = []) : SameToken tail (⟨.eof, 0⟩, next) (⟨.eof, 0⟩, next')
  | newline {next next' text} (more : tail = chr '\n' :: text) (rest : next'.rest = text) :
      SameToken tail (⟨.eof, 0⟩, next) (⟨.newline, 1⟩, next')

section Token

variable {lexer lexer' : RsmLexer} {tail : List Byte}

theorem RsmLexer.rest_advance_append {n : Nat} (more : lexer'.rest = lexer.rest ++ tail)
    (inside : n ≤ lexer.rest.length) :
    (lexer'.advance n).rest = (lexer.advance n).rest ++ tail := by
  have drop : ∀ lexer : RsmLexer, (lexer.advance n).rest = lexer.rest.drop n :=
    fun _ => List.drop_drop.symm
  rw [drop, drop, more, List.drop_append_of_le_length inside]

theorem tokenizeNumber_same {mid mid' : RsmLexer} (b : Byte) (text : List Byte)
    (line : AtLineEnd tail) (more : mid'.rest = mid.rest ++ tail)
    (here : mid.rest = b :: text) :
    SameToken tail (tokenizeNumber mid (b :: text)).val
      (tokenizeNumber mid' (b :: (text ++ tail))).val := by
  have inside : (strtol (b :: text)).2 ≤ mid.rest.length := by
    rw [here]
    exact (strtol_take (b :: text)).1
  unfold tokenizeNumber
  rw [strtol_ends b text line.wordEnds]
  have behind := RsmLexer.rest_advance_append more inside
  generalize strtol (b :: text) = found at behind ⊢
  obtain ⟨value, size⟩ := found
  dsimp only at behind ⊢
  split
  · exact .token RsmTokenType.noConfusion more
  · split
    · exact .token RsmTokenType.noConfusion behind
    · exact .token RsmTokenType.noConfusion behind

/-- **A token ends before its line does.** -/
theorem tokenize_same (line : AtLineEnd tail) (more : lexer'.rest = lexer.rest ++ tail) :
    SameToken tail (rsmLexerTokenize lexer).val (rsmLexerTokenize lexer').val := by
  obtain ⟨blanks, comment, behind, gap, split, skipped, here⟩ := exists_skipped lexer
  have split' : lexer'.rest = blanks ++ comment ++ (behind ++ tail) := by
    rw [more, split, List.append_assoc]
  have gap' : Gap blanks comment (behind ++ tail) := by
    refine ⟨gap.blank, gap.remark, fun given => ?_, ?_⟩
    · cases behind with
      | nil => exact line
      | cons b text => exact gap.place given
    · cases behind with
      | nil =>
        intro b head
        rw [line b head]
        decide
      | cons b text => exact gap.begins
  have skipped' := gap'.skipped split'
  have here' := RsmLexer.rest_advance split'
  generalize lexer.advance (blanks ++ comment).length = mid at skipped here
  generalize lexer'.advance (blanks ++ comment).length = mid' at skipped' here'
  have both : mid'.rest = mid.rest ++ tail := by rw [here', here]
  cases behind with
  | nil =>
    rw [rsmLexerTokenize_end skipped here]
    cases tail with
    | nil =>
      rw [rsmLexerTokenize_end skipped' here']
      exact .eof rfl
    | cons b text =>
      obtain rfl := line b rfl
      have found : punctuation (chr '\n') = some .newline := rfl
      have newline : mid'.rest = [chr '\n'] ++ text := here'
      rw [rsmLexerTokenize_punctuation skipped' here' found]
      exact .newline rfl (RsmLexer.rest_advance newline)
  | cons b text =>
    have one : 1 ≤ mid.rest.length := by
      rw [here]
      exact Nat.succ_le_succ (Nat.zero_le _)
    cases found : punctuation b with
    | some type =>
      rw [rsmLexerTokenize_punctuation skipped here found,
        rsmLexerTokenize_punctuation skipped' here' found]
      refine .token (fun eof => ?_) (RsmLexer.rest_advance_append both one)
      rw [show type = .eof from eof] at found
      exact absurd (punctuation_goesOn found).1 (by decide)
    | none =>
      by_cases start : isAlphaChar b.toInt = true ∨ b = chr '_'
      · have scanned : (scanIdent (b :: (text ++ tail))).val = (scanIdent (b :: text)).val :=
          scanIdent_ends (b :: text) line.wordEnds
        obtain ⟨_, word, _⟩ := scanIdent_split (b :: text)
        rw [rsmLexerTokenize_word skipped here found start rfl,
          rsmLexerTokenize_word skipped' here' found start scanned]
        refine .token (fun eof => ?_) (RsmLexer.rest_advance_append both ?_)
        · have goesOn := wordType_goesOn (scanIdent (b :: text)).val
          rw [show wordType (scanIdent (b :: text)).val = .eof from eof] at goesOn
          cases goesOn
        · have length := congrArg List.length word
          rw [List.length_append] at length
          rw [here]
          omega
      · by_cases digit : isDigitChar b.toInt = true
        · rw [rsmLexerTokenize_number skipped here found start digit,
            rsmLexerTokenize_number skipped' here' found start digit]
          exact tokenizeNumber_same b text line both here
        · rw [rsmLexerTokenize_unexpected skipped here found start digit,
            rsmLexerTokenize_unexpected skipped' here' found start digit]
          exact .token RsmTokenType.noConfusion (RsmLexer.rest_advance_append both one)

end Token

/-! ## Token sequences of several lines -/

/-- A parser reads the tokens of what is left of the text, wherever the text came from. -/
theorem Reads.congr {lexer lexer' : RsmLexer} {ts : List RsmTokenType}
    (h : Reads (rsmParserAdvance lexer).val ts) (same : lexer'.rest = lexer.rest) :
    Reads (rsmParserAdvance lexer').val ts := by
  induction ts generalizing lexer lexer' with
  | nil =>
    have token := tokenize_same atLineEnd_nil (same.trans (List.append_nil _).symm)
    have type : (rsmLexerTokenize lexer).val.1.type = .eof := h
    show (rsmLexerTokenize lexer').val.1.type = .eof
    generalize (rsmLexerTokenize lexer).val = r, (rsmLexerTokenize lexer').val = r' at token type
    cases token with
    | token running => exact absurd type running
    | eof => rfl
    | newline more => cases more
  | cons t ts ih =>
    have token := tokenize_same atLineEnd_nil (same.trans (List.append_nil _).symm)
    obtain ⟨type, running, rest⟩ := h
    have type : (rsmLexerTokenize lexer).val.1.type = t := type
    have rest : Reads (rsmParserAdvance (rsmLexerTokenize lexer).val.2).val ts := rest
    show (rsmLexerTokenize lexer').val.1.type = t ∧ t ≠ .eof ∧
      Reads (rsmParserAdvance (rsmLexerTokenize lexer').val.2).val ts
    generalize (rsmLexerTokenize lexer).val = r, (rsmLexerTokenize lexer').val = r'
      at token type rest
    cases token with
    | token _ same' => exact ⟨type, running, ih rest (same'.trans (List.append_nil _))⟩
    | eof => exact absurd type.symm running
    | newline more => cases more

/-- The tokens of a text, then a newline, then those of the text behind it. -/
theorem Reads.lines {lexer lexer' : RsmLexer} {ts ts' : List RsmTokenType} {text' : List Byte}
    (h : Reads (rsmParserAdvance lexer).val ts)
    (h' : ∀ lexer' : RsmLexer, lexer'.rest = text' → Reads (rsmParserAdvance lexer').val ts')
    (more : lexer'.rest = lexer.rest ++ chr '\n' :: text') :
    Reads (rsmParserAdvance lexer').val (ts ++ .newline :: ts') := by
  induction ts generalizing lexer lexer' with
  | nil =>
    have token := tokenize_same (atLineEnd_newline text') more
    have type : (rsmLexerTokenize lexer).val.1.type = .eof := h
    show (rsmLexerTokenize lexer').val.1.type = .newline ∧ RsmTokenType.newline ≠ .eof ∧
      Reads (rsmParserAdvance (rsmLexerTokenize lexer').val.2).val ts'
    generalize (rsmLexerTokenize lexer).val = r, (rsmLexerTokenize lexer').val = r' at token type
    cases token with
    | token running => exact absurd type running
    | eof none => cases none
    | newline more rest =>
      cases more
      exact ⟨rfl, RsmTokenType.noConfusion, h' _ rest⟩
  | cons t ts ih =>
    have token := tokenize_same (atLineEnd_newline text') more
    obtain ⟨type, running, rest⟩ := h
    have type : (rsmLexerTokenize lexer).val.1.type = t := type
    have rest : Reads (rsmParserAdvance (rsmLexerTokenize lexer).val.2).val ts := rest
    show (rsmLexerTokenize lexer').val.1.type = t ∧ t ≠ .eof ∧
      Reads (rsmParserAdvance (rsmLexerTokenize lexer').val.2).val (ts ++ .newline :: ts')
    generalize (rsmLexerTokenize lexer).val = r, (rsmLexerTokenize lexer').val = r'
      at token type rest
    cases token with
    | token _ same => exact ⟨type, running, ih rest same⟩
    | eof _ | newline _ _ => exact absurd type.symm running

/-- **A newline separates tokens.** -/
theorem sourceTokens_lines (text text' : List Byte) :
    sourceTokens (text ++ chr '\n' :: text') =
      sourceTokens text ++ .newline :: sourceTokens text' := by
  refine (reads_sourceTokens _).unique ((reads_sourceTokens text).lines ?_ rfl)
  exact fun lexer' rest => (reads_sourceTokens text').congr rest

/-! ## Sentences of several lines -/

/-- The tokens that instructions are made of. -/
def RsmTokenType.inInstr : RsmTokenType → Bool
  | .opcode _ | .reg _ | .ident _ | .number _ | .comma | .lbracket | .rbracket => true
  | _ => false

theorem RsmOperand.tokens_inInstr (opr : RsmOperand) : opr.tokens.all RsmTokenType.inInstr := by
  rcases opr with _ | v | r | name | (_ | v | r | name) <;> rfl

theorem RsmInstr.tokens_inInstr (instr : RsmInstr) : ∀ t ∈ instr.tokens, t.inInstr = true := by
  refine List.forall_mem_cons.mpr ⟨rfl, ?_⟩
  unfold operandTokens
  split
  · exact List.all_eq_true.mp instr.opr1.tokens_inInstr
  · refine List.forall_mem_append.mpr ⟨List.all_eq_true.mp instr.opr1.tokens_inInstr, ?_⟩
    exact List.forall_mem_cons.mpr ⟨rfl, List.all_eq_true.mp instr.opr2.tokens_inInstr⟩

section Sentence

variable {valid : RsmInstr → Prop} {ts ts' : List RsmTokenType} {items items' : List RsmItem}

theorem LineEnds.append_newline (ends : LineEnds ts) (ts' : List RsmTokenType) :
    LineEnds (ts ++ .newline :: ts') := by
  rcases ends with rfl | ⟨rest, rfl⟩
  · exact .inr ⟨ts', rfl⟩
  · exact .inr ⟨rest ++ .newline :: ts', rfl⟩

theorem LineEnds.of_append_newline (ends : LineEnds (ts ++ .newline :: ts')) : LineEnds ts := by
  cases ts with
  | nil => exact .inl rfl
  | cons t ts =>
    rcases ends with none | ⟨rest, begins⟩
    · cases none
    · cases begins
      exact .inr ⟨ts, rfl⟩

/-- Two sentences with a newline between them are one. -/
theorem Sentence.append_lines (left : Sentence valid ts items)
    (right : Sentence valid ts' items') :
    Sentence valid (ts ++ .newline :: ts') (items ++ items') := by
  induction left with
  | done => exact .newline right
  | newline _ ih => exact .newline ih
  | label name _ ih => exact .label name ih
  | instr ok ends _ ih =>
    rw [List.append_assoc]
    exact .instr ok (ends.append_newline ts') ih

/-- A sentence can be divided at every newline. -/
theorem Sentence.split_lines (h : Sentence valid (ts ++ .newline :: ts') items) :
    ∃ items₁ items₂, items = items₁ ++ items₂ ∧ Sentence valid ts items₁ ∧
      Sentence valid ts' items₂ := by
  generalize whole : ts ++ .newline :: ts' = all at h
  induction h generalizing ts with
  | done => exact absurd whole (List.append_ne_nil_of_right_ne_nil ts (List.cons_ne_nil _ _))
  | newline rest ih =>
    cases ts with
    | nil =>
      cases whole
      exact ⟨[], _, rfl, .done, rest⟩
    | cons t ts =>
      cases whole
      obtain ⟨items₁, items₂, rfl, first, second⟩ := ih rfl
      exact ⟨items₁, items₂, rfl, .newline first, second⟩
  | label name rest ih =>
    rcases ts with _ | ⟨t, _ | ⟨t', ts⟩⟩
    · cases whole
    · cases whole
    · cases whole
      obtain ⟨items₁, items₂, rfl, first, second⟩ := ih rfl
      exact ⟨.label name :: items₁, items₂, rfl, .label name first, second⟩
  | @instr behind _ instr ok ends rest ih =>
    -- the newline is not among the tokens of the instruction
    have inside : ∀ tail, instr.tokens = ts ++ .newline :: tail → False := by
      intro tail split
      have newline := instr.tokens_inInstr .newline
        (by rw [split]; exact List.mem_append_right _ List.mem_cons_self)
      cases newline
    obtain ⟨left, here, rfl⟩ : ∃ left, ts = instr.tokens ++ left ∧
        behind = left ++ .newline :: ts' := by
      rcases List.append_eq_append_iff.mp whole with ⟨tail, split, there⟩ | ⟨left, here, there⟩
      · cases tail with
        | nil => exact ⟨[], by rw [split, List.append_nil, List.append_nil], there.symm⟩
        | cons t tail =>
          cases there
          exact (inside tail split).elim
      · exact ⟨left, here, there⟩
    subst here
    obtain ⟨items₁, items₂, rfl, first, second⟩ := ih rfl
    exact ⟨.instr instr :: items₁, items₂, rfl, .instr ok ends.of_append_newline first, second⟩

end Sentence

/-! ## Programs of several texts -/

/-- The label with `n` more instructions before it. -/
def RsmLabel.shift (n : Nat) (label : RsmLabel) : RsmLabel :=
  { label with address := BitVec.ofNat 16 (n + label.address.toNat) }

theorem labelsOf_shift (n m : Nat) (items : List RsmItem) :
    labelsOf (n + m) items = (labelsOf m items).map (RsmLabel.shift n) := by
  induction items generalizing m with
  | nil => rfl
  | cons item items ih =>
    cases item with
    | label name =>
      have address : BitVec.ofNat 16 (n + m) =
          BitVec.ofNat 16 (n + (BitVec.ofNat 16 m).toNat) := by
        apply BitVec.eq_of_toNat_eq
        simp only [BitVec.toNat_ofNat, Nat.add_mod_mod]
      show RsmLabel.mk name (BitVec.ofNat 16 (n + m)) :: labelsOf (n + m) items = _
      rw [ih, address]
      rfl
    | instr instr => exact ih (m + 1)

theorem mem_labelsOf {n : Nat} {items : List RsmItem} {label : RsmLabel} :
    label ∈ labelsOf n items ↔ ∃ before after, items = before ++ .label label.name :: after ∧
      label.address = BitVec.ofNat 16 (n + (instrsOf before).length) := by
  induction items generalizing n with
  | nil => simp [labelsOf]
  | cons item items ih =>
    cases item with
    | label name =>
      rw [labelsOf, List.mem_cons, ih]
      constructor
      · rintro (rfl | ⟨before, after, rfl, address⟩)
        · exact ⟨[], items, rfl, rfl⟩
        · exact ⟨.label name :: before, after, rfl, address⟩
      · rintro ⟨before, after, split, address⟩
        cases before with
        | nil =>
          cases split
          exact .inl (by cases label; cases address; rfl)
        | cons item before =>
          cases split
          exact .inr ⟨before, after, rfl, address⟩
    | instr instr =>
      rw [labelsOf, ih]
      have count : ∀ before : List RsmItem, n + (instrsOf (.instr instr :: before)).length =
          n + 1 + (instrsOf before).length := by
        intro before
        show n + ((instrsOf before).length + 1) = _
        omega
      constructor
      · rintro ⟨before, after, rfl, address⟩
        exact ⟨.instr instr :: before, after, rfl, by rw [count, address]⟩
      · rintro ⟨before, after, split, address⟩
        cases before with
        | nil => cases split
        | cons item before =>
          cases split
          exact ⟨before, after, rfl, by rw [address, count]⟩

/-- The program of two texts in a row: the second one's labels are further down by the length of the
first one, and still fit into 16 bits. -/
structure Joins (p p' program : RsmProgram) : Prop where
  instrs : program.instrs.items = p.instrs.items ++ p'.instrs.items
  labels : program.labels.items =
    p.labels.items ++ p'.labels.items.map (RsmLabel.shift p.instrs.items.length)
  fits : ∀ label ∈ p'.labels.items, p.instrs.items.length + label.address.toNat ≤ UINT16_MAX

/-- The labels of a parsed text are where its items have them. -/
theorem Extends.labelsFit_iff {items : List RsmItem} {program : RsmProgram}
    (built : Extends rsmProgramCreate items program) (n : Nat) :
    LabelsFit n items ↔ ∀ label ∈ program.labels.items, n + label.address.toNat ≤ UINT16_MAX := by
  have labels : program.labels.items = labelsOf 0 items := built.labels
  rw [labels]
  constructor
  · intro fits label mem
    obtain ⟨before, after, split, address⟩ := mem_labelsOf.mp mem
    have := fits before label.name after split
    have := Nat.mod_le (0 + (instrsOf before).length) (2 ^ 16)
    rw [address, BitVec.toNat_ofNat]
    omega
  · intro fits before name after split
    have small : 0 + (instrsOf before).length ≤ 0xFFFF := built.fits before name after split
    have here := fits ⟨name, BitVec.ofNat 16 (0 + (instrsOf before).length)⟩
      (mem_labelsOf.mpr ⟨before, after, split, rfl⟩)
    rw [BitVec.toNat_ofNat] at here
    omega

theorem Extends.joins {items items' : List RsmItem} {p p' program : RsmProgram}
    (first : Extends rsmProgramCreate items p) (second : Extends rsmProgramCreate items' p')
    (whole : Extends rsmProgramCreate (items ++ items') program) : Joins p p' program := by
  have count : p.instrs.items.length = 0 + (instrsOf items).length := first.length
  refine ⟨?_, ?_, ?_⟩
  · rw [whole.instrs, first.instrs, second.instrs, instrsOf_append, List.append_assoc]
    rfl
  · have labels := labelsOf_shift p.instrs.items.length 0 items'
    rw [count] at labels ⊢
    rw [whole.labels, first.labels, second.labels, labelsOf_append, List.append_assoc]
    exact congrArg (fun after => rsmProgramCreate.labels.items ++ (labelsOf 0 items ++ after))
      labels
  · have fits : LabelsFit 0 (items ++ items') := whole.fits
    rw [← second.labelsFit_iff, count]
    exact fits.right

/-- Two texts that parse do so in a row. -/
theorem Parses.join {text text' : List Byte} {p p' : RsmProgram}
    (parses : Parses (fun _ => true) text p) (parses' : Parses (fun _ => true) text' p')
    (fits : ∀ label ∈ p'.labels.items, p.instrs.items.length + label.address.toNat ≤ UINT16_MAX) :
    ∃ program, Parses (fun _ => true) (text ++ chr '\n' :: text') program ∧ Joins p p' program := by
  obtain ⟨items₁, first, built₁⟩ := parses.sentence
  obtain ⟨items₂, second, built₂⟩ := parses'.sentence
  have sentence := first.append_lines second
  rw [← sourceTokens_lines] at sentence
  have fits₂ := (built₂.labelsFit_iff p.instrs.items.length).mpr fits
  rw [show p.instrs.items.length = 0 + (instrsOf items₁).length from built₁.length] at fits₂
  obtain ⟨program, parsed, built⟩ := sentence.parses_of_fits (.append built₁.fits fits₂)
  exact ⟨program, parsed, built₁.joins built₂ built⟩

/-- **Two texts in a row.** A text with a newline in it parses exactly when what is before the
newline and what is behind it parse and the labels of the second part are not too far down; and
then the program is that of the first part with that of the second part behind it. -/
theorem sources_join (text text' : List Byte) :
    (∀ program, Parses (fun _ => true) (text ++ chr '\n' :: text') program →
      ∃ p p', Parses (fun _ => true) text p ∧ Parses (fun _ => true) text' p' ∧
        Joins p p' program) ∧
    ∀ p p', Parses (fun _ => true) text p → Parses (fun _ => true) text' p' →
      (∀ label ∈ p'.labels.items, p.instrs.items.length + label.address.toNat ≤ UINT16_MAX) →
      ∃ program, Parses (fun _ => true) (text ++ chr '\n' :: text') program ∧
        Joins p p' program := by
  constructor
  · intro program parses
    obtain ⟨items, sentence, built⟩ := parses.sentence
    rw [sourceTokens_lines] at sentence
    obtain ⟨items₁, items₂, rfl, first, second⟩ := sentence.split_lines
    have fits : LabelsFit 0 (items₁ ++ items₂) := built.fits
    obtain ⟨p, parses₁, built₁⟩ := first.parses_of_fits fits.left
    obtain ⟨p', parses₂, built₂⟩ := second.parses_of_fits (fits.right.mono (Nat.zero_le _))
    exact ⟨p, p', parses₁, parses₂, built₁.joins built₂ built⟩
  · exact fun p p' parses parses' fits => parses.join parses' fits

end RocketVm
