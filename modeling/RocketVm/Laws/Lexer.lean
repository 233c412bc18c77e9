import RocketVm.Asm.Lexer

/-!
# The branches of the lexer

What each branch of the tokenizer returns, and where `strtol` finds the digits of a number.
-/

namespace RocketVm

open Lib

/-- How much of the text is left. -/
def RsmLexer.left (lexer : RsmLexer) : Nat := lexer.rest.length

/-- A token the parser's main loop does not continue behind. -/
def RsmTokenType.stops : RsmTokenType → Bool
  | .eof | .invalid => true
  | _ => false

/-- An identifier is its bytes. -/
theorem RsmIdent.bytes_injective : Function.Injective RsmIdent.bytes := by
  rintro ⟨bytes, _⟩ ⟨bytes', _⟩ rfl
  rfl

/-- A label of one letter. -/
def labelA : RsmIdent := ⟨[chr 'a'], rfl⟩

def labelB : RsmIdent := ⟨[chr 'b'], rfl⟩

theorem scanIdent_pos {ch : Byte} (h : isIdentChar ch = true) (rest : List Byte) :
    1 ≤ (scanIdent (ch :: rest)).val.bytes.length := by
  rw [scanIdent, Traced.val_bind, dif_pos h, Traced.val_bind, Traced.val_pure]
  exact Nat.succ_pos _

/-- The base `strtol` finds at a byte: sixteen behind a prefix, else eight or ten. -/
theorem strtolBase_cases (ch : Byte) (rest : List Byte) :
    (∃ x d ds, ch = chr '0' ∧ rest = x :: d :: ds ∧ (x = chr 'x' ∨ x = chr 'X') ∧
      digitValue d < 16 ∧ strtolBase (ch :: rest) = (16, 2)) ∨
    (ch = chr '0' ∧ strtolBase (ch :: rest) = (8, 0)) ∨
    (ch ≠ chr '0' ∧ strtolBase (ch :: rest) = (10, 0)) := by
  have plain : strtolBase (ch :: rest) = (if ch = chr '0' then (8, 0) else (10, 0)) →
      (ch = chr '0' ∧ strtolBase (ch :: rest) = (8, 0)) ∨
        (ch ≠ chr '0' ∧ strtolBase (ch :: rest) = (10, 0)) := by
    intro base
    by_cases lead : ch = chr '0'
    · exact .inl ⟨lead, base.trans (if_pos lead)⟩
    · exact .inr ⟨lead, base.trans (if_neg lead)⟩
  rcases rest with _ | ⟨x, _ | ⟨d, ds⟩⟩
  · exact .inr (plain rfl)
  · exact .inr (plain rfl)
  · by_cases hex : ch = chr '0' ∧ (x = chr 'x' ∨ x = chr 'X') ∧ digitValue d < 16
    · exact .inl ⟨x, d, ds, hex.1, rfl, hex.2.1, hex.2.2, if_pos hex⟩
    · exact .inr (plain (if_neg hex))

/-- At a digit `strtol` takes at least that digit. -/
theorem strtol_size_pos {ch : Byte} (digit : isDigitChar ch.toInt = true) (rest : List Byte) :
    (strtol (ch :: rest)).2 ≠ 0 := by
  have value : digitValue ch < 10 ∧ (ch = chr '0' → digitValue ch < 8) := by
    revert ch
    decide +kernel
  have some_ : ∀ {base : Nat} {c : Byte} {cs : List Byte}, digitValue c < base →
      (((c :: cs).map digitValue).takeWhile fun d => decide (d < base)) ≠ [] := by
    intro base c cs small
    rw [List.map_cons, List.takeWhile_cons, if_pos (decide_eq_true small)]
    exact List.cons_ne_nil _ _
  have plain : ∀ {base : Nat}, digitValue ch < base → strtolBase (ch :: rest) = (base, 0) →
      (strtol (ch :: rest)).2 ≠ 0 := by
    intro base small found none
    simp only [strtol, found, List.drop_zero, some_ small, ↓reduceIte, Nat.zero_add] at none
    exact some_ small (List.length_eq_zero_iff.mp none)
  rcases strtolBase_cases ch rest with ⟨x, d, ds, rfl, rfl, _, small, found⟩ | ⟨lead, found⟩ |
    ⟨_, found⟩
  · intro none
    simp only [strtol, found, List.drop_succ_cons, List.drop_zero, some_ small, ↓reduceIte] at none
    omega
  · exact plain (value.2 lead) found
  · exact plain value.1 found

/-! ## The branches of the tokenizer -/

section Token

variable {lexer mid : RsmLexer} {b : Byte} {text : List Byte}
  (skipped : lexer.advance (skipTrivia false lexer.rest).val = mid)

include skipped

theorem rsmLexerTokenize_end (more : mid.rest = []) :
    (rsmLexerTokenize lexer).val = (⟨.eof, 0⟩, mid) := by
  rw [rsmLexerTokenize, Traced.val_bind, Traced.val_bind, skipped]
  simp only [more, Traced.val_pure]

variable (more : mid.rest = b :: text)

include more

theorem rsmLexerTokenize_punctuation {type : RsmTokenType} (found : punctuation b = some type) :
    (rsmLexerTokenize lexer).val = (⟨type, 1⟩, mid.advance 1) := by
  rw [rsmLexerTokenize, Traced.val_bind, Traced.val_bind, skipped]
  simp only [more, found, Traced.val_pure]

variable (other : punctuation b = none)

include other

theorem rsmLexerTokenize_word (start : isAlphaChar b.toInt = true ∨ b = chr '_')
    {name : RsmIdent} (scanned : (scanIdent (b :: text)).val = name) :
    (rsmLexerTokenize lexer).val =
      (⟨wordType name, name.bytes.length⟩, mid.advance name.bytes.length) := by
  have alpha : (isalpha b.toInt).val = true ∨ b = chr '_' := start
  rw [rsmLexerTokenize, Traced.val_bind, Traced.val_bind, skipped]
  simp only [more, other, Traced.val_bind, alpha, ↓reduceIte, scanned, Traced.val_pure]

variable (start : ¬ (isAlphaChar b.toInt = true ∨ b = chr '_'))

include start

theorem rsmLexerTokenize_number (digit : isDigitChar b.toInt = true) :
    (rsmLexerTokenize lexer).val = (tokenizeNumber mid (b :: text)).val := by
  have alpha : ¬ ((isalpha b.toInt).val = true ∨ b = chr '_') := start
  have digit : (isdigit b.toInt).val = true := digit
  rw [rsmLexerTokenize, Traced.val_bind, Traced.val_bind, skipped]
  simp only [more, other, Traced.val_bind, alpha, digit, ↓reduceIte]

theorem rsmLexerTokenize_unexpected (digit : ¬ isDigitChar b.toInt = true) :
    (rsmLexerTokenize lexer).val = (⟨.invalid, 0⟩, mid.advance 1) := by
  have alpha : ¬ ((isalpha b.toInt).val = true ∨ b = chr '_') := start
  have digit : ¬ (isdigit b.toInt).val = true := digit
  rw [rsmLexerTokenize, Traced.val_bind, Traced.val_bind, skipped]
  simp only [more, other, Traced.val_bind, alpha, digit, ↓reduceIte, Bool.false_eq_true,
    Traced.val_pure]

end Token

end RocketVm
