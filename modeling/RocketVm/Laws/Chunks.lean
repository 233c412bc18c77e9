import RocketVm.Laws.Words
import Mathlib.Data.List.TakeWhile

/-!
# What a call of the tokenizer takes

`rsmLexerTokenize_cases` says for every text what one call does: it takes blanks, at most one
comment and the word of its token, or what is left, or something that is no token. Every call takes
at least one byte of the text unless it has found the end.
-/

namespace RocketVm

open Lib

/-! ## Blanks and comments -/

theorem forall_head_nil {p : Byte → Prop} : ∀ b ∈ ([] : List Byte).head?, p b := by
  intro b head
  cases head

theorem forall_head_cons {p : Byte → Prop} {b : Byte} (h : p b) (text : List Byte) :
    ∀ b' ∈ (b :: text).head?, p b' := by
  intro b' head
  cases head
  exact h

/-- The text is at its end, or begins with something other than a blank or a comment. -/
def TokenBegins (text : List Byte) : Prop :=
  ∀ b ∈ text.head?, isBlank b = false ∧ b ≠ chr ';'

theorem skipTrivia_cons (b : Byte) (text : List Byte) :
    (skipTrivia false (b :: text)).val =
      if isBlank b = true then (skipTrivia false text).val + 1
      else if b = chr ';' then (skipTrivia true text).val + 1
      else 0 := by
  have blank : isBlank b = true ↔ (isspace b.toNat).val = true ∧ b ≠ chr '\n' := by
    rw [isBlank, Bool.and_eq_true, bne_iff_ne]
    rfl
  rw [skipTrivia, Traced.val_bind]
  simp only [← blank]
  split
  · rfl
  · split <;> rfl

theorem skipTrivia_begins {text : List Byte} (begins : TokenBegins text) :
    (skipTrivia false text).val = 0 := by
  cases text with
  | nil => rfl
  | cons b text =>
    obtain ⟨blank, comment⟩ := begins b rfl
    rw [skipTrivia_cons, blank, if_neg Bool.false_ne_true, if_neg comment]

/-- A comment is skipped up to the end of its line. -/
theorem skipTrivia_comment {body text : List Byte} (line : ∀ b ∈ body, b ≠ chr '\n')
    (place : ∀ b ∈ text.head?, b = chr '\n') :
    (skipTrivia true (body ++ text)).val = body.length := by
  induction body with
  | nil =>
    cases text with
    | nil => rfl
    | cons b text =>
      rw [List.nil_append, skipTrivia, if_neg (not_not.mpr (place b rfl))]
      rfl
  | cons b body ih =>
    rw [List.cons_append, skipTrivia, if_pos (line b List.mem_cons_self), Traced.val_bind,
      ih fun c mem => line c (List.mem_cons_of_mem b mem)]
    rfl

theorem skipTrivia_append {blanks comment text : List Byte}
    (blank : ∀ b ∈ blanks, isBlank b = true) (remark : Comment comment)
    (place : comment ≠ [] → ∀ b ∈ text.head?, b = chr '\n') (begins : TokenBegins text) :
    (skipTrivia false (blanks ++ comment ++ text)).val = (blanks ++ comment).length := by
  induction blanks with
  | nil =>
    cases remark with
    | none => exact skipTrivia_begins begins
    | @text body line =>
      rw [List.nil_append, List.cons_append, skipTrivia_cons, if_neg (by decide), if_pos rfl,
        skipTrivia_comment line (place (List.cons_ne_nil _ _))]
      rfl
  | cons b blanks ih =>
    rw [List.cons_append, List.cons_append, skipTrivia_cons, if_pos (blank b List.mem_cons_self),
      ih fun c mem => blank c (List.mem_cons_of_mem b mem)]
    rfl

theorem RsmLexer.rest_advance {lexer : RsmLexer} {word text : List Byte}
    (more : lexer.rest = word ++ text) : (lexer.advance word.length).rest = text := by
  have split : (lexer.advance word.length).rest = lexer.rest.drop word.length :=
    List.drop_drop.symm
  rw [split, more, List.drop_left]

/-- Blanks in front of a token are skipped. -/
theorem skip_blanks {lexer : RsmLexer} {blanks text : List Byte}
    (blank : ∀ b ∈ blanks, isBlank b = true) (begins : TokenBegins text)
    (more : lexer.rest = blanks ++ text) :
    lexer.advance (skipTrivia false lexer.rest).val = lexer.advance blanks.length ∧
      (lexer.advance blanks.length).rest = text := by
  refine ⟨congrArg lexer.advance ?_, RsmLexer.rest_advance more⟩
  rw [more, ← List.append_nil blanks, skipTrivia_append blank .none (absurd rfl) begins]

theorem RsmLexer.advance_advance (lexer : RsmLexer) (m n : Nat) :
    (lexer.advance m).advance n = lexer.advance (m + n) := by
  simp only [advance, Nat.add_assoc]

/-! ## Gaps -/

/-- Blanks and at most a comment, up to where the line or a token goes on. -/
structure Gap (blanks comment behind : List Byte) : Prop where
  blank : ∀ b ∈ blanks, isBlank b = true
  remark : Comment comment
  place : comment ≠ [] → ∀ b ∈ behind.head?, b = chr '\n'
  begins : TokenBegins behind

/-- What is behind a comment begins with its newline, if there is one. -/
theorem head_dropWhile (text : List Byte) :
    ∀ b ∈ (text.dropWhile fun c => c != chr '\n').head?, b = chr '\n' := by
  intro b head
  have stops := List.head?_dropWhile_not (fun c => c != chr '\n') text
  rw [Option.mem_def.mp head] at stops
  simpa using stops

/-- No comment ends at a token that is not of a single character. -/
theorem Gap.comment_nil {blanks comment text : List Byte} {b : Byte}
    (gap : Gap blanks comment (b :: text)) (other : punctuation b = none) : comment = [] := by
  by_contra given
  rw [gap.place given b rfl] at other
  cases other

theorem exists_gap (text : List Byte) :
    ∃ blanks comment behind, text = blanks ++ comment ++ behind ∧ Gap blanks comment behind := by
  induction text with
  | nil => exact ⟨[], [], [], rfl, List.forall_mem_nil _, .none, absurd rfl, forall_head_nil⟩
  | cons b text ih =>
    by_cases blank : isBlank b = true
    · obtain ⟨blanks, comment, behind, rfl, gap⟩ := ih
      exact ⟨b :: blanks, comment, behind, rfl, List.forall_mem_cons.mpr ⟨blank, gap.blank⟩,
        gap.remark, gap.place, gap.begins⟩
    · by_cases remark : b = chr ';'
      · subst remark
        have newline := head_dropWhile text
        refine ⟨[], chr ';' :: text.takeWhile fun c => c != chr '\n',
          text.dropWhile fun c => c != chr '\n', ?_, List.forall_mem_nil _,
          .text fun c mem => ?_, fun _ => newline, fun c head => ?_⟩
        · rw [List.nil_append, List.cons_append, List.takeWhile_append_dropWhile]
        · exact bne_iff_ne.mp (List.mem_takeWhile_imp (p := fun c => c != chr '\n') mem)
        · rw [newline c head]
          decide
      · refine ⟨[], [], b :: text, rfl, List.forall_mem_nil _, .none, absurd rfl, ?_⟩
        exact forall_head_cons ⟨Bool.eq_false_iff.mpr blank, remark⟩ text

theorem Gap.skipped {lexer : RsmLexer} {blanks comment behind : List Byte}
    (gap : Gap blanks comment behind) (split : lexer.rest = blanks ++ comment ++ behind) :
    lexer.advance (skipTrivia false lexer.rest).val =
      lexer.advance (blanks ++ comment).length := by
  rw [split, skipTrivia_append gap.blank gap.remark gap.place gap.begins]

/-- Every call skips a gap first. -/
theorem exists_skipped (lexer : RsmLexer) : ∃ blanks comment behind, Gap blanks comment behind ∧
    lexer.rest = blanks ++ comment ++ behind ∧
    lexer.advance (skipTrivia false lexer.rest).val = lexer.advance (blanks ++ comment).length ∧
    (lexer.advance (blanks ++ comment).length).rest = behind := by
  obtain ⟨blanks, comment, behind, split, gap⟩ := exists_gap lexer.rest
  exact ⟨blanks, comment, behind, gap, split, gap.skipped split, RsmLexer.rest_advance split⟩

/-! ## Words -/

/-- A scanned identifier is at the start of the text, up to its end. -/
theorem scanIdent_split (text : List Byte) :
    ∃ behind, text = (scanIdent text).val.bytes ++ behind ∧ WordEnds behind := by
  induction text with
  | nil => exact ⟨[], rfl, forall_head_nil⟩
  | cons ch text ih =>
    obtain ⟨behind, split, ends⟩ := ih
    rw [scanIdent, Traced.val_bind]
    by_cases char : isIdentChar ch = true
    · rw [dif_pos char]
      exact ⟨behind, congrArg (List.cons ch) split, ends⟩
    · rw [dif_neg char]
      exact ⟨ch :: text, rfl, forall_head_cons (Bool.eq_false_iff.mpr char) text⟩

/-- The prefix in front of the digits is in the text. -/
theorem strtolBase_split (text : List Byte) :
    (strtolBase text).1 ≤ 36 ∧ (strtolBase text).2 ≤ text.length ∧
      ∀ b ∈ text.take (strtolBase text).2, digitValue b < 36 := by
  cases text with
  | nil => exact ⟨by decide, Nat.le_refl _, List.forall_mem_nil _⟩
  | cons ch rest =>
    rcases strtolBase_cases ch rest with ⟨x, d, ds, rfl, rfl, mark, _, found⟩ | ⟨_, found⟩ |
      ⟨_, found⟩
    · rw [found]
      refine ⟨by decide, Nat.le_add_left _ _, ?_⟩
      rcases mark with rfl | rfl <;>
        exact List.forall_mem_cons.mpr ⟨by decide, List.forall_mem_singleton.mpr (by decide)⟩
    · rw [found]
      exact ⟨by decide, Nat.zero_le _, List.forall_mem_nil _⟩
    · rw [found]
      exact ⟨by decide, Nat.zero_le _, List.forall_mem_nil _⟩

theorem strtol_take (text : List Byte) :
    (strtol text).2 ≤ text.length ∧ ∀ b ∈ text.take (strtol text).2, digitValue b < 36 := by
  obtain ⟨small, inside, announces⟩ := strtolBase_split text
  rcases found : strtolBase text with ⟨base, skip⟩
  rw [found] at small inside announces
  dsimp only at small inside announces
  simp only [strtol, found, List.takeWhile_map, List.length_map]
  split
  · exact ⟨Nat.zero_le _, List.forall_mem_nil _⟩
  · have digits : (text.drop skip).takeWhile ((fun d => decide (d < base)) ∘ digitValue) <+:
        text.drop skip := List.takeWhile_prefix _
    have length := digits.length_le
    rw [List.length_drop] at length
    refine ⟨by omega, fun b mem => ?_⟩
    rw [List.take_add, List.mem_append, ← List.prefix_iff_eq_take.mp digits] at mem
    rcases mem with mem | mem
    · exact announces b mem
    · have digit : decide (digitValue b < base) = true :=
        List.mem_takeWhile_imp (p := (fun d => decide (d < base)) ∘ digitValue) mem
      rw [decide_eq_true_eq] at digit
      omega

/-- What `strtol` takes is at the start of the text, and consists of digits of some base. -/
theorem strtol_split (text : List Byte) :
    ∃ word behind, text = word ++ behind ∧ (strtol text).2 = word.length ∧
      ∀ b ∈ word, digitValue b < 36 := by
  obtain ⟨inside, digits⟩ := strtol_take text
  exact ⟨text.take (strtol text).2, text.drop (strtol text).2, (List.take_append_drop _ _).symm,
    (List.length_take_of_le inside).symm, digits⟩

/-- Whether or not it fits, a number is taken whole. -/
theorem tokenizeNumber_val (lexer : RsmLexer) {text : List Byte} (some_ : (strtol text).2 ≠ 0) :
    (tokenizeNumber lexer text).val = (⟨.invalid, 0⟩, lexer.advance (strtol text).2) ∨
      ∃ v, (tokenizeNumber lexer text).val =
        (⟨.number v, (strtol text).2⟩, lexer.advance (strtol text).2) := by
  unfold tokenizeNumber
  dsimp only
  rw [if_neg some_]
  split
  · exact .inl rfl
  · exact .inr ⟨_, rfl⟩

/-! ## Chunks -/

/-- What a call takes that finds a token: blanks, at most a comment and the word of the token. A
comment stands in front of a newline alone, and a newline is a word of its own. -/
structure Chunk where
  blanks : List Byte
  comment : List Byte
  word : List Byte
  token : RsmToken
  blank : ∀ b ∈ blanks, isBlank b = true
  remark : Comment comment
  place : comment ≠ [] → token.type = .newline
  goesOn : token.type.stops = false
  given : word ≠ []
  size : token.size = word.length
  line : chr '\n' ∈ word → token.type = .newline ∧ word = [chr '\n']

def Chunk.bytes (chunk : Chunk) : List Byte := chunk.blanks ++ chunk.comment ++ chunk.word

/-- What a call of the tokenizer does: it takes a chunk, or the blanks and the comment that are
left, or blanks and something that is no token. -/
inductive CallCase (lexer : RsmLexer) : RsmToken × RsmLexer → Prop
  | token (chunk : Chunk) {text} (more : lexer.rest = chunk.bytes ++ text) :
      CallCase lexer (chunk.token, lexer.advance chunk.bytes.length)
  | eof {blanks comment} (blank : ∀ b ∈ blanks, isBlank b = true) (remark : Comment comment)
      (more : lexer.rest = blanks ++ comment) :
      CallCase lexer (⟨.eof, 0⟩, lexer.advance (blanks ++ comment).length)
  | invalid {blanks wrong text} (blank : ∀ b ∈ blanks, isBlank b = true) (given : wrong ≠ [])
      (line : chr '\n' ∉ wrong) (more : lexer.rest = blanks ++ wrong ++ text) :
      CallCase lexer (⟨.invalid, 0⟩, lexer.advance (blanks ++ wrong).length)

theorem punctuation_goesOn {b : Byte} {type : RsmTokenType} (found : punctuation b = some type) :
    type.stops = false ∧ (b = chr '\n' → type = .newline) := by
  unfold punctuation at found
  repeat' split at found
  all_goals cases found
  · next comma => exact ⟨rfl, by rw [comma]; decide⟩
  · next colon => exact ⟨rfl, by rw [colon]; decide⟩
  · next bracket => exact ⟨rfl, by rw [bracket]; decide⟩
  · next bracket => exact ⟨rfl, by rw [bracket]; decide⟩
  · exact ⟨rfl, fun _ => rfl⟩

theorem wordType_goesOn (name : RsmIdent) : (wordType name).stops = false := by
  unfold wordType
  split
  · rfl
  · split <;> rfl

/-- No word and no number goes over a newline. -/
theorem newline_not_mem {word : List Byte} (digits : ∀ b ∈ word, digitValue b < 36) :
    chr '\n' ∉ word :=
  fun mem => absurd (digits _ mem) (by decide)

theorem RsmIdent.newline_not_mem (name : RsmIdent) : chr '\n' ∉ name.bytes :=
  fun mem => absurd (List.all_eq_true.mp name.chars _ mem) (by decide)

section Call

variable {lexer : RsmLexer} (text : List Byte)

theorem CallCase.of_chunk (chunk : Chunk)
    (split : lexer.rest = chunk.blanks ++ chunk.comment ++ (chunk.word ++ text))
    (call : (rsmLexerTokenize lexer).val = (chunk.token,
      (lexer.advance (chunk.blanks ++ chunk.comment).length).advance chunk.word.length)) :
    CallCase lexer (rsmLexerTokenize lexer).val := by
  rw [call, RsmLexer.advance_advance, ← List.length_append]
  exact .token chunk (split.trans (List.append_assoc _ _ _).symm)

theorem CallCase.of_wrong {blanks wrong : List Byte} (blank : ∀ b ∈ blanks, isBlank b = true)
    (given : wrong ≠ []) (line : chr '\n' ∉ wrong)
    (split : lexer.rest = blanks ++ [] ++ (wrong ++ text))
    (call : (rsmLexerTokenize lexer).val =
      (⟨.invalid, 0⟩, (lexer.advance (blanks ++ []).length).advance wrong.length)) :
    CallCase lexer (rsmLexerTokenize lexer).val := by
  rw [List.append_nil] at split call
  rw [call, RsmLexer.advance_advance, ← List.length_append]
  exact .invalid blank given line (split.trans (List.append_assoc _ _ _).symm)

section Other

variable {blanks : List Byte} {b : Byte}
  (blank : ∀ c ∈ blanks, isBlank c = true) (split : lexer.rest = blanks ++ [] ++ b :: text)
include blank split

theorem CallCase.of_word (start : isIdentChar b = true)
    (call : ∀ name, (scanIdent (b :: text)).val = name → (rsmLexerTokenize lexer).val =
      (⟨wordType name, name.bytes.length⟩,
        (lexer.advance (blanks ++ []).length).advance name.bytes.length)) :
    CallCase lexer (rsmLexerTokenize lexer).val := by
  obtain ⟨behind, taken, _⟩ := scanIdent_split (b :: text)
  have length := scanIdent_pos start text
  generalize scanned : (scanIdent (b :: text)).val = name at taken length
  rw [taken] at split
  exact .of_chunk behind ⟨blanks, [], name.bytes, ⟨wordType name, name.bytes.length⟩, blank, .none,
    absurd rfl, wordType_goesOn name, List.ne_nil_of_length_pos length, rfl,
    fun mem => absurd mem name.newline_not_mem⟩ split (call name scanned)

theorem CallCase.of_number (digit : isDigitChar b.toInt = true)
    (call : (rsmLexerTokenize lexer).val =
      (tokenizeNumber (lexer.advance (blanks ++ []).length) (b :: text)).val) :
    CallCase lexer (rsmLexerTokenize lexer).val := by
  have size := strtol_size_pos digit text
  have read := tokenizeNumber_val (lexer.advance (blanks ++ []).length) size
  obtain ⟨word, behind, taken, length, digits⟩ := strtol_split (b :: text)
  rw [length] at size read
  have given : word ≠ [] := fun none => size (congrArg List.length none)
  have line := newline_not_mem digits
  rw [taken] at split
  rcases read with wrong | ⟨v, number⟩
  · exact .of_wrong behind blank given line split (call.trans wrong)
  · exact .of_chunk behind ⟨blanks, [], word, ⟨.number v, word.length⟩, blank, .none,
      absurd rfl, rfl, given, rfl, fun mem => absurd mem line⟩ split (call.trans number)

end Other

end Call

/-- **The inversion of a call.** -/
theorem rsmLexerTokenize_cases (lexer : RsmLexer) :
    CallCase lexer (rsmLexerTokenize lexer).val := by
  obtain ⟨blanks, comment, behind, gap, split, skipped, more⟩ := exists_skipped lexer
  cases behind with
  | nil =>
    rw [rsmLexerTokenize_end skipped more]
    exact .eof gap.blank gap.remark (split.trans (List.append_nil _))
  | cons b text =>
    cases other : punctuation b with
    | some type =>
      obtain ⟨goesOn, newline⟩ := punctuation_goesOn other
      refine .of_chunk text ⟨blanks, comment, [b], ⟨type, 1⟩, gap.blank, gap.remark,
        fun given => newline (gap.place given b rfl), goesOn, List.cons_ne_nil _ _, rfl,
        fun mem => ?_⟩ split (rsmLexerTokenize_punctuation skipped more other)
      have same := List.mem_singleton.mp mem
      exact ⟨newline same.symm, congrArg (fun c => [c]) same.symm⟩
    | none =>
      obtain rfl := gap.comment_nil other
      by_cases start : isAlphaChar b.toInt = true ∨ b = chr '_'
      · have nameStart : isNameStart b = true := by
          rw [isNameStart, Bool.or_eq_true, beq_iff_eq]
          exact start
        exact .of_word text gap.blank split (isIdentChar_of_start nameStart) fun name scanned =>
          rsmLexerTokenize_word skipped more other start scanned
      · by_cases digit : isDigitChar b.toInt = true
        · exact .of_number text gap.blank split digit
            (rsmLexerTokenize_number skipped more other start digit)
        · have line : chr '\n' ∉ [b] := by
            intro mem
            rw [← List.mem_singleton.mp mem] at other
            cases other
          exact .of_wrong text gap.blank (List.cons_ne_nil b []) line split
            (rsmLexerTokenize_unexpected skipped more other start digit)

/-! ## Progress -/

theorem RsmLexer.left_taken {lexer : RsmLexer} {taken text : List Byte}
    (more : lexer.rest = taken ++ text) :
    (lexer.advance taken.length).left + taken.length = lexer.left := by
  rw [left, left, rest_advance more, more, List.length_append, Nat.add_comm]

/-- A call of the tokenizer leaves no more text than there was, and less unless it has found the
end. -/
theorem rsmLexerTokenize_left (lexer : RsmLexer) :
    (rsmLexerTokenize lexer).val.2.left ≤ lexer.left ∧
    ((rsmLexerTokenize lexer).val.1.type = .eof ∨
      (rsmLexerTokenize lexer).val.2.left < lexer.left) := by
  have less : ∀ {taken text : List Byte}, taken ≠ [] → lexer.rest = taken ++ text →
      (lexer.advance taken.length).left < lexer.left := by
    intro taken text given more
    have left := RsmLexer.left_taken more
    have length := List.length_pos_iff.mpr given
    omega
  have case_ := rsmLexerTokenize_cases lexer
  generalize (rsmLexerTokenize lexer).val = result at case_ ⊢
  cases case_ with
  | token chunk more =>
    have took := less (List.append_ne_nil_of_right_ne_nil _ chunk.given) more
    exact ⟨Nat.le_of_lt took, .inr took⟩
  | eof blank remark more =>
    have left := RsmLexer.left_taken (more.trans (List.append_nil _).symm)
    exact ⟨Nat.le_of_add_right_le (Nat.le_of_eq left), .inl rfl⟩
  | invalid blank given line more =>
    have took := less (List.append_ne_nil_of_right_ne_nil _ given) more
    exact ⟨Nat.le_of_lt took, .inr took⟩

end RocketVm
