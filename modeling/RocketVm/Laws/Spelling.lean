import RocketVm.Laws.Grammar

/-!
# Reading what is written

The lexer finds in a spelled text the tokens it spells: one call skips the blanks and the comment in
front of a token, and takes the token up to its end. With the grammar of the parser this gives the
round trip: a written program is parsed, and it is the program that was written.
-/

namespace RocketVm

open Lib

/-! ## Tokens -/

section Token

variable {lexer mid : RsmLexer} {text : List Byte}

/-- A word is taken up to its end. -/
theorem tokenize_word (skipped : lexer.advance (skipTrivia false lexer.rest).val = mid)
    {name : RsmIdent} (start : ∃ b bs, name.bytes = b :: bs ∧ isNameStart b = true)
    (more : mid.rest = name.bytes ++ text) (ends : WordEnds text) :
    (rsmLexerTokenize lexer).val =
      (⟨wordType name, name.bytes.length⟩, mid.advance name.bytes.length) := by
  obtain ⟨b, bs, bytes, start⟩ := start
  have scanned := scanIdent_append name ends
  rw [bytes, List.cons_append] at scanned more
  have other := (isIdentChar_begins (isIdentChar_of_start start)).2.2
  rw [isNameStart, Bool.or_eq_true, beq_iff_eq] at start
  exact rsmLexerTokenize_word skipped more other start scanned

/-- A number is taken up to its end. -/
theorem tokenize_number (skipped : lexer.advance (skipTrivia false lexer.rest).val = mid)
    {v : SInt32} {word : List Byte} (number : NumberText v.toNat word)
    (small : v.toNat < 0x80000000) (more : mid.rest = word ++ text) (ends : WordEnds text) :
    (rsmLexerTokenize lexer).val = (⟨.number v, word.length⟩, mid.advance word.length) := by
  have read := tokenizeNumber_append mid number small ends
  obtain ⟨d, ds, rfl, digit⟩ := number.first
  obtain ⟨char, start⟩ := isDigitChar_char digit
  have other := (isIdentChar_begins char).2.2
  have start : ¬ (isAlphaChar d.toInt = true ∨ d = chr '_') := by
    rw [isNameStart, Bool.eq_false_iff, ne_eq, Bool.or_eq_true, beq_iff_eq] at start
    exact start
  exact (rsmLexerTokenize_number skipped more other start digit).trans read

end Token

/-- What is a word in lower case is a word as it stands. -/
theorem exists_word {word letters : List Byte} (spelled : word.map lowerCase = letters)
    (chars : letters.all isIdentChar = true) (start : letters.head?.any isLower = true) :
    ∃ name : RsmIdent, name.bytes = word ∧
      ∃ b bs, name.bytes = b :: bs ∧ isNameStart b = true := by
  subst spelled
  have chars : word.all isIdentChar = true := by
    rw [List.all_eq_true] at chars ⊢
    exact fun b mem => lowerCase_char (chars _ (List.mem_map_of_mem mem))
  cases word with
  | nil => cases start
  | cons b bs => exact ⟨⟨b :: bs, chars⟩, rfl, b, bs, rfl, lowerCase_start start⟩

theorem RvmOpcode.mnemonic_chars (op : RvmOpcode) :
    op.mnemonic.all isIdentChar = true ∧ op.mnemonic.head?.any isLower = true := by
  cases op <;> exact ⟨rfl, rfl⟩

theorem RvmReg.name_chars : ∀ r : RvmReg,
    (RvmReg.name r).all isIdentChar = true ∧ (RvmReg.name r).head?.any isLower = true := by
  decide

/-- What the tokenizer makes of the text of a token: a word, a number, or a single character. -/
inductive TokenForm : RsmTokenType → List Byte → Prop
  | word {t} {name : RsmIdent} (is : wordType name = t) (isWord : t.isWord = true)
      (start : ∃ b bs, name.bytes = b :: bs ∧ isNameStart b = true) : TokenForm t name.bytes
  | number {v : SInt32} {word} (number : NumberText v.toNat word) (small : v.toNat < 0x80000000) :
      TokenForm (.number v) word
  | mark {t b} (found : punctuation b = some t) (blank : isBlank b = false)
      (comment : b ≠ chr ';') : TokenForm t [b]

theorem TokenText.form {t : RsmTokenType} {word : List Byte} (spelled : TokenText t word) :
    TokenForm t word := by
  cases spelled with
  | @opcode op _ recased =>
    obtain ⟨name, rfl, start⟩ := exists_word recased op.mnemonic_chars.1 op.mnemonic_chars.2
    exact .word (wordType_opcode recased) rfl start
  | @reg r _ recased =>
    obtain ⟨name, rfl, start⟩ :=
      exists_word recased (RvmReg.name_chars r).1 (RvmReg.name_chars r).2
    exact .word (wordType_reg recased) rfl start
  | ident valid => exact .word (wordType_ident valid) rfl valid.start
  | number number small => exact .number number small
  | comma | colon | lbracket | rbracket | newline => exact .mark rfl (by decide) (by decide)

/-- A call of the tokenizer in front of a token takes it, up to its end. -/
theorem TokenForm.tokenize {lexer mid : RsmLexer} {t : RsmTokenType} {word text : List Byte}
    (form : TokenForm t word) (skipped : lexer.advance (skipTrivia false lexer.rest).val = mid)
    (more : mid.rest = word ++ text) (ends : t.isWord = true → WordEnds text) :
    (rsmLexerTokenize lexer).val = (⟨t, word.length⟩, mid.advance word.length) := by
  cases form with
  | word is isWord start => rw [tokenize_word skipped start more (ends isWord), is]
  | number number small => exact tokenize_number skipped number small more (ends rfl)
  | mark found _ _ => exact rsmLexerTokenize_punctuation skipped more found

/-! ## Texts -/

/-- How a token begins. -/
theorem TokenForm.begins {t : RsmTokenType} {word : List Byte} (form : TokenForm t word) :
    ∃ b bs, word = b :: bs ∧ isBlank b = false ∧ b ≠ chr ';' ∧
      (t.isWord = false → isIdentChar b = false) := by
  cases form with
  | word is isWord start =>
    obtain ⟨b, bs, bytes, start⟩ := start
    obtain ⟨blank, comment, _⟩ := isIdentChar_begins (isIdentChar_of_start start)
    refine ⟨b, bs, bytes, blank, comment, fun other => ?_⟩
    exact absurd (other.symm.trans isWord) Bool.false_ne_true
  | number number _ =>
    obtain ⟨d, ds, rfl, digit⟩ := number.first
    obtain ⟨blank, comment, _⟩ := isIdentChar_begins (isDigitChar_char digit).1
    exact ⟨d, ds, rfl, blank, comment, fun other => absurd other.symm Bool.false_ne_true⟩
  | @mark _ b found blank comment =>
    refine ⟨b, [], rfl, blank, comment, fun _ => ?_⟩
    rw [Bool.eq_false_iff]
    intro char
    cases (isIdentChar_begins char).2.2.symm.trans found

/-- A word that is not set off by a blank ends where the text of the next tokens begins. -/
theorem Spells.wordEnds {ts : List RsmTokenType} {text : List Byte} (h : Spells ts text)
    (apart : (ts.head?.any RsmTokenType.isWord) = true → BeginsBlank text) : WordEnds text := by
  have trivia : ∀ {blanks comment text : List Byte}, (∀ b ∈ blanks, isBlank b = true) →
      Comment comment → (comment = [] → blanks = [] → WordEnds text) →
      WordEnds (blanks ++ comment ++ text) := by
    intro blanks comment text blank remark behind
    cases blanks with
    | cons b blanks => exact forall_head_cons (isBlank_char (blank b List.mem_cons_self)) _
    | nil =>
      cases remark with
      | none => exact behind rfl rfl
      | text line => exact forall_head_cons (by decide) _
  cases h with
  | @done blanks comment blank remark =>
    rw [← List.append_nil (blanks ++ comment)]
    exact trivia blank remark fun _ _ => forall_head_nil
  | @token t ts blanks comment word text blank remark place spelled _ rest =>
    rw [List.append_assoc]
    refine trivia blank remark fun noComment noBlanks => ?_
    obtain ⟨b, bs, rfl, isBlank_, _, other⟩ := spelled.form.begins
    refine forall_head_cons ?_ _
    cases isWord : t.isWord with
    | false => exact other isWord
    | true =>
      obtain ⟨b', rest, here, blank'⟩ := apart isWord
      subst noComment noBlanks
      cases here
      exact isBlank_char blank'

/-- **Tokens of a text.** In front of a spelling the parser reads the spelled tokens. -/
theorem Spells.reads {ts : List RsmTokenType} {text : List Byte} (h : Spells ts text)
    {lexer : RsmLexer} (more : lexer.rest = text) :
    Reads (rsmParserAdvance lexer).val ts := by
  induction h generalizing lexer with
  | @done blanks comment blank remark =>
    have skipped : (skipTrivia false lexer.rest).val = (blanks ++ comment).length := by
      rw [← skipTrivia_append blank remark (fun _ => forall_head_nil) forall_head_nil,
        List.append_nil, more]
    have rest : (lexer.advance (skipTrivia false lexer.rest).val).rest = [] := by
      rw [skipped]
      exact RsmLexer.rest_advance (more.trans (List.append_nil _).symm)
    show (rsmLexerTokenize lexer).val.1.type = .eof
    rw [rsmLexerTokenize_end rfl rest]
  | @token t ts blanks comment word text blank remark place spelled apart rest ih =>
    obtain ⟨b, bs, bytes, isBlank_, noComment, _⟩ := spelled.form.begins
    have begins : TokenBegins (word ++ text) := by
      rw [bytes]
      exact forall_head_cons ⟨isBlank_, noComment⟩ _
    have newline : comment ≠ [] → ∀ b ∈ (word ++ text).head?, b = chr '\n' := by
      intro given
      cases place given
      cases spelled
      exact forall_head_cons (p := fun b => b = chr '\n') rfl _
    have skipped : (skipTrivia false lexer.rest).val = (blanks ++ comment).length := by
      rw [more, List.append_assoc (blanks ++ comment),
        skipTrivia_append blank remark newline begins]
    have behind : (lexer.advance (skipTrivia false lexer.rest).val).rest = word ++ text := by
      rw [skipped]
      exact RsmLexer.rest_advance (more.trans (List.append_assoc _ _ _))
    have taken := spelled.form.tokenize rfl behind fun isWord => rest.wordEnds (apart isWord)
    refine ⟨?_, ?_, ?_⟩
    · show (rsmLexerTokenize lexer).val.1.type = t
      rw [taken]
    · rintro rfl
      cases spelled
    · show Reads (rsmParserAdvance (rsmLexerTokenize lexer).val.2).val ts
      rw [taken]
      exact ih (RsmLexer.rest_advance behind)

theorem Spells.sourceTokens {ts : List RsmTokenType} {text : List Byte} (h : Spells ts text) :
    sourceTokens text = ts :=
  (reads_sourceTokens text).unique (h.reads rfl)

/-- **Round trip.** A program of at most 65535 instructions, in whatever way it is written, is
parsed, and the result has its instructions and its labels, each label with the number of the
instructions before it. -/
theorem written_program_parses {items : List RsmItem} {text : List Byte}
    (written : Writes items text) (few : (instrsOf items).length ≤ 65535) :
    ∃ program, Parses (fun _ => true) text program ∧
      program.instrs.items = instrsOf items ∧ program.labels.items = labelsOf 0 items := by
  obtain ⟨ts, sentence, spelled⟩ := written
  rw [← spelled.sourceTokens] at sentence
  have accepted := sentence.mono fun instr _ => Documented.accepted
  obtain ⟨program, parsed, built⟩ := accepted.parses few
  exact ⟨program, parsed, built.instrs, built.labels⟩

/-- The source `a: Jmp a ;x` with a CRLF at its end. -/
def jumpHereSource : List Byte :=
  ['a', ':', ' ', 'J', 'm', 'p', ' ', 'a', ' ', ';', 'x', '\r', '\n'].map chr

def jumpHereItems : List RsmItem :=
  [.label labelA, .instr ⟨.jmp, .label labelA, .none⟩]

theorem jumpHereSource_writes : Writes jumpHereItems jumpHereSource := by
  have name : RsmIdent.IsName labelA := by
    refine ⟨⟨chr 'a', [], rfl, by decide⟩, fun op => ?_, by decide⟩
    cases op <;> decide
  refine ⟨_, .label _ (.instr (.toLabel rfl) (.inr ⟨[], rfl⟩) (.newline .done)), ?_⟩
  have none : ∀ b ∈ ([] : List Byte), isBlank b = true := List.forall_mem_nil _
  have space : ∀ b ∈ [chr ' '], isBlank b = true := by decide
  have closed := @Spells.done [] [] none .none
  have line := @Spells.token .newline _ [chr ' '] (chr ';' :: [chr 'x', chr '\r']) _ _ space
    (.text (by decide)) (fun _ => rfl) .newline (fun word => by cases word) closed
  have target := @Spells.token (.ident labelA) _ [chr ' '] [] _ _ space .none
    (absurd rfl) (.ident name) (fun _ word => by cases word) line
  have jump := @Spells.token (.opcode .jmp) _ [chr ' '] [] (['J', 'm', 'p'].map chr) _ space .none
    (absurd rfl) (.opcode (by decide)) (fun _ _ => ⟨_, _, rfl, by decide⟩) target
  have colon := @Spells.token .colon _ [] [] _ _ none .none (absurd rfl) .colon
    (fun word => by cases word) jump
  exact @Spells.token (.ident labelA) _ [] [] _ _ none .none (absurd rfl) (.ident name)
    (fun _ word => by cases word) colon

theorem written_program_parses_jump :
    ∃ program, Parses (fun _ => true) jumpHereSource program ∧
      program.instrs.items = instrsOf jumpHereItems ∧
      program.labels.items = labelsOf 0 jumpHereItems :=
  written_program_parses jumpHereSource_writes (by decide)

end RocketVm
