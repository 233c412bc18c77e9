import RocketVm.Laws.Spelling

/-!
# Keywords

The lexer compares words with the opcodes and registers letter by letter, the machine prints their
names from a table of its own. Up to letter case the two agree, and every other word is an
identifier.
-/

namespace RocketVm

open Lib

/-- The word is the string, in some letter case. -/
def SameWord (word : List Byte) (s : String) : Prop :=
  word.map lowerCase = (bytesOf s).map lowerCase

/-- In front of the lexer are blanks and then a word, up to its end. -/
structure NextWord (lexer : RsmLexer) (blanks : List Byte) (word : RsmIdent) (text : List Byte) :
    Prop where
  blank : ∀ b ∈ blanks, isBlank b = true
  start : ∃ b bs, word.bytes = b :: bs ∧ isNameStart b = true
  more : lexer.rest = blanks ++ word.bytes ++ text
  ends : WordEnds text

/-- The types of the tokens that words are, by the names that the machine prints. -/
inductive WordToken (word : RsmIdent) : RsmTokenType → Prop
  | opcode {op : RvmOpcode} (spelled : SameWord word.bytes (rvmOpcodeToString op.code)) :
      WordToken word (.opcode op)
  | reg {r : RvmReg} (spelled : SameWord word.bytes (rvmRegToString r.val)) :
      WordToken word (.reg r)
  | ident (noOpcode : ∀ op : RvmOpcode, ¬ SameWord word.bytes (rvmOpcodeToString op.code))
      (noReg : ∀ r : RvmReg, ¬ SameWord word.bytes (rvmRegToString r.val)) :
      WordToken word (.ident word)

/-! ## Names -/

theorem rvmOpcodeToString_mnemonic (op : RvmOpcode) :
    (bytesOf (rvmOpcodeToString op.code)).map lowerCase = op.mnemonic := by
  cases op <;> rfl

theorem rvmRegToString_name (r : RvmReg) :
    (bytesOf (rvmRegToString r.val)).map lowerCase = RvmReg.name r := by
  revert r
  decide

theorem sameWord_opcode {word : List Byte} {op : RvmOpcode} :
    SameWord word (rvmOpcodeToString op.code) ↔ word.map lowerCase = op.mnemonic := by
  rw [SameWord, rvmOpcodeToString_mnemonic]

theorem sameWord_reg {word : List Byte} {r : RvmReg} :
    SameWord word (rvmRegToString r.val) ↔ word.map lowerCase = RvmReg.name r := by
  rw [SameWord, rvmRegToString_name]

/-! ## Words -/

section Word

variable {word : RsmIdent} (start : ∃ b bs, word.bytes = b :: bs ∧ isNameStart b = true)
include start

theorem WordToken.wordType {type : RsmTokenType} (is : WordToken word type) :
    wordType word = type := by
  cases is with
  | opcode spelled => exact wordType_opcode (sameWord_opcode.mp spelled)
  | reg spelled => exact wordType_reg (sameWord_reg.mp spelled)
  | ident noOpcode noReg =>
    exact wordType_ident ⟨start, fun op same => noOpcode op (sameWord_opcode.mpr same),
      fun r same => noReg r (sameWord_reg.mpr same)⟩

/-- Every word is a token of one type. -/
theorem wordType_iff {type : RsmTokenType} : wordType word = type ↔ WordToken word type := by
  have some_ : ∃ type, WordToken word type := by
    by_cases opcode : ∃ op : RvmOpcode, SameWord word.bytes (rvmOpcodeToString op.code)
    · obtain ⟨op, spelled⟩ := opcode
      exact ⟨_, .opcode spelled⟩
    · by_cases reg : ∃ r : RvmReg, SameWord word.bytes (rvmRegToString r.val)
      · obtain ⟨r, spelled⟩ := reg
        exact ⟨_, .reg spelled⟩
      · exact ⟨_, .ident (not_exists.mp opcode) (not_exists.mp reg)⟩
  refine ⟨fun same => ?_, fun is => is.wordType start⟩
  obtain ⟨type', is⟩ := some_
  rw [← same, is.wordType start]
  exact is

end Word

/-- A word behind blanks is taken up to its end, and no further. -/
theorem NextWord.tokenize {lexer : RsmLexer} {blanks text : List Byte} {word : RsmIdent}
    (next : NextWord lexer blanks word text) :
    (rsmLexerTokenize lexer).val = (⟨wordType word, word.bytes.length⟩,
      lexer.advance (blanks.length + word.bytes.length)) := by
  have begins : TokenBegins (word.bytes ++ text) := by
    obtain ⟨b, bs, bytes, start⟩ := next.start
    rw [bytes]
    have char := isIdentChar_begins (isIdentChar_of_start start)
    exact forall_head_cons ⟨char.1, char.2.1⟩ _
  obtain ⟨skipped, behind⟩ :=
    skip_blanks next.blank begins (next.more.trans (List.append_assoc _ _ _))
  rw [tokenize_word skipped next.start behind next.ends, RsmLexer.advance_advance]

theorem rvmOpcodeToString_word (op : RvmOpcode) :
    ∃ word : RsmIdent, word.bytes = bytesOf (rvmOpcodeToString op.code) ∧
      ∃ b bs, word.bytes = b :: bs ∧ isNameStart b = true :=
  exists_word (rvmOpcodeToString_mnemonic op) op.mnemonic_chars.1 op.mnemonic_chars.2

theorem rvmRegToString_word (r : RvmReg) :
    ∃ word : RsmIdent, word.bytes = bytesOf (rvmRegToString r.val) ∧
      ∃ b bs, word.bytes = b :: bs ∧ isNameStart b = true :=
  exists_word (rvmRegToString_name r) (RvmReg.name_chars r).1 (RvmReg.name_chars r).2

/-- A name that the machine prints is read without blanks before it. -/
theorem nextWord_bytesOf {lexer : RsmLexer} {word : RsmIdent} {text : List Byte} {name : String}
    (bytes : word.bytes = bytesOf name)
    (start : ∃ b bs, word.bytes = b :: bs ∧ isNameStart b = true)
    (more : lexer.rest = bytesOf name ++ text) (ends : WordEnds text) :
    NextWord lexer [] word text :=
  ⟨List.forall_mem_nil _, start, by rw [bytes]; exact more, ends⟩

/-- **Keywords.** A word is a token of exactly one type: an opcode if and only if it is the
opcode's name in some letter case, a register if and only if it is the register's name, and
otherwise an identifier with the whole word for its slice. The names that the machine prints are
such words, and are read as the opcodes and registers they are the names of. -/
theorem keywords_exact :
    (∀ (lexer : RsmLexer) (blanks : List Byte) (word : RsmIdent) (text : List Byte),
      NextWord lexer blanks word text →
      ∃ token, (rsmLexerTokenize lexer).val =
          (token, lexer.advance (blanks.length + word.bytes.length)) ∧
        token.size = word.bytes.length ∧
        (∀ op : RvmOpcode,
          token.type = .opcode op ↔ SameWord word.bytes (rvmOpcodeToString op.code)) ∧
        (∀ r : RvmReg, token.type = .reg r ↔ SameWord word.bytes (rvmRegToString r.val)) ∧
        (∀ name, token.type = .ident name ↔ WordToken word (.ident word) ∧ name = word) ∧
        (∃! type, WordToken word type)) ∧
    (∀ (op : RvmOpcode) (lexer : RsmLexer) (text : List Byte),
      lexer.rest = bytesOf (rvmOpcodeToString op.code) ++ text → WordEnds text →
      (rsmLexerTokenize lexer).val.1.type = .opcode op) ∧
    (∀ (r : RvmReg) (lexer : RsmLexer) (text : List Byte),
      lexer.rest = bytesOf (rvmRegToString r.val) ++ text → WordEnds text →
      (rsmLexerTokenize lexer).val.1.type = .reg r) := by
  refine ⟨fun lexer blanks word text next => ?_, fun op lexer text more ends => ?_,
    fun r lexer text more ends => ?_⟩
  · have exact {type : RsmTokenType} : wordType word = type ↔ WordToken word type :=
      wordType_iff next.start
    refine ⟨_, next.tokenize, rfl, fun op => ?_, fun r => ?_, fun name => ?_, ?_⟩
    · refine exact.trans ⟨fun is => ?_, .opcode⟩
      cases is with
      | opcode spelled => exact spelled
    · refine exact.trans ⟨fun is => ?_, .reg⟩
      cases is with
      | reg spelled => exact spelled
    · refine exact.trans ⟨fun is => ?_, fun ⟨is, same⟩ => same ▸ is⟩
      cases is with
      | ident noOpcode noReg => exact ⟨.ident noOpcode noReg, rfl⟩
    · exact ⟨wordType word, exact.mp rfl, fun type is => (exact.mpr is).symm⟩
  · obtain ⟨word, bytes, start⟩ := rvmOpcodeToString_word op
    rw [(nextWord_bytesOf bytes start more ends).tokenize]
    exact (wordType_iff start).mpr (.opcode (congrArg (List.map lowerCase) bytes))
  · obtain ⟨word, bytes, start⟩ := rvmRegToString_word r
    rw [(nextWord_bytesOf bytes start more ends).tokenize]
    exact (wordType_iff start).mpr (.reg (congrArg (List.map lowerCase) bytes))

end RocketVm
