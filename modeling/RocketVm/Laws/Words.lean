import RocketVm.Language
import RocketVm.Laws.Lexer

/-!
# Words and numbers

The scanner's longest match: in front of a byte that continues no word, an identifier is scanned to
its end and a number is read with all its digits. The keyword tables recognize exactly the opcodes
and registers in any letter case.
-/

namespace RocketVm

open Lib

/-! ## Bytes -/

/-- A byte is a character constant when their codes agree. -/
theorem eq_chr_iff {b : Byte} {c : Char} (small : c.toNat < 256) :
    b = chr c ↔ b.toNat = c.toNat := by
  rw [← BitVec.toNat_inj, chr, BitVec.toNat_ofNat, Nat.mod_eq_of_lt small]

/-- `char` is signed. -/
theorem toInt_byte (b : Byte) :
    (b.toNat < 128 ∧ b.toInt = b.toNat) ∨ (128 ≤ b.toNat ∧ b.toInt = b.toNat - 256) := by
  have := b.isLt
  rw [BitVec.toInt_eq_toNat_cond]
  split <;> omega

theorem isDigitChar_iff {c : Int} : isDigitChar c = true ↔ 0x30 ≤ c ∧ c ≤ 0x39 := by
  rw [isDigitChar, Bool.and_eq_true, decide_eq_true_eq, decide_eq_true_eq]

theorem isAlphaChar_iff {c : Int} :
    isAlphaChar c = true ↔ (0x41 ≤ c ∧ c ≤ 0x5A) ∨ (0x61 ≤ c ∧ c ≤ 0x7A) := by
  simp only [isAlphaChar, Bool.or_eq_true, Bool.and_eq_true, decide_eq_true_eq]

/-- Letters and underscores, by their codes. -/
theorem isNameStart_iff {b : Byte} : isNameStart b = true ↔
    (0x41 ≤ b.toNat ∧ b.toNat ≤ 0x5A) ∨ (0x61 ≤ b.toNat ∧ b.toNat ≤ 0x7A) ∨ b.toNat = 0x5F := by
  have := toInt_byte b
  have underscore : b = chr '_' ↔ b.toNat = 0x5F := eq_chr_iff (by decide)
  rw [isNameStart, Bool.or_eq_true, isAlphaChar_iff, beq_iff_eq, underscore]
  omega

/-- Letters, underscores and digits. -/
theorem isIdentChar_iff {b : Byte} : isIdentChar b = true ↔
    isNameStart b = true ∨ (0x30 ≤ b.toNat ∧ b.toNat ≤ 0x39) := by
  have digit : isDigitChar b.toInt = true ↔ 0x30 ≤ b.toNat ∧ b.toNat ≤ 0x39 := by
    have := toInt_byte b
    rw [isDigitChar_iff]
    omega
  rw [isIdentChar, isAlnumChar, isNameStart, Bool.or_eq_true, Bool.or_eq_true, Bool.or_eq_true,
    digit, or_right_comm]

/-- White space other than a newline, by its codes. -/
theorem isBlank_iff {b : Byte} : isBlank b = true ↔
    b.toNat = 0x20 ∨ (0x09 ≤ b.toNat ∧ b.toNat ≤ 0x0D ∧ b.toNat ≠ 0x0A) := by
  have newline : b = chr '\n' ↔ b.toNat = 0x0A := eq_chr_iff (by decide)
  simp only [isBlank, isSpaceChar, Bool.and_eq_true, Bool.or_eq_true, beq_iff_eq, bne_iff_ne,
    ne_eq, decide_eq_true_eq, newline]
  omega

theorem lowerCase_toNat (b : Byte) : (lowerCase b).toNat =
    if 0x41 ≤ b.toNat ∧ b.toNat ≤ 0x5A then b.toNat + 0x20 else b.toNat := by
  by_cases upper : 0x41 ≤ b.toNat ∧ b.toNat ≤ 0x5A
  · have bounds : (chr 'A').toNat ≤ b.toNat ∧ b.toNat ≤ (chr 'Z').toNat := upper
    rw [lowerCase, if_pos bounds, if_pos upper, BitVec.toNat_add]
    show (b.toNat + 0x20) % 256 = _
    omega
  · have bounds : ¬ ((chr 'A').toNat ≤ b.toNat ∧ b.toNat ≤ (chr 'Z').toNat) := upper
    rw [lowerCase, if_neg bounds, if_neg upper]

theorem isIdentChar_of_start {b : Byte} (start : isNameStart b = true) : isIdentChar b = true :=
  isIdentChar_iff.mpr (.inl start)

theorem isDigitChar_char {b : Byte} (digit : isDigitChar b.toInt = true) :
    isIdentChar b = true ∧ isNameStart b = false := by
  have := toInt_byte b
  rw [isDigitChar_iff] at digit
  rw [isIdentChar_iff, Bool.eq_false_iff, ne_eq, isNameStart_iff]
  omega

theorem isBlank_char {b : Byte} (blank : isBlank b = true) : isIdentChar b = false := by
  rw [isBlank_iff] at blank
  rw [Bool.eq_false_iff, ne_eq, isIdentChar_iff, isNameStart_iff]
  omega

/-- A character of a word is no blank, begins no comment and is no token of its own. -/
theorem isIdentChar_begins {b : Byte} (char : isIdentChar b = true) :
    isBlank b = false ∧ b ≠ chr ';' ∧ punctuation b = none := by
  have blank : isBlank b = false := by
    rw [Bool.eq_false_iff]
    intro blank
    exact Bool.false_ne_true ((isBlank_char blank).symm.trans char)
  have other : ∀ {c : Char}, isIdentChar (chr c) = false → b ≠ chr c := by
    rintro c ends rfl
    exact Bool.false_ne_true (ends.symm.trans char)
  refine ⟨blank, other (by decide), ?_⟩
  rw [punctuation, if_neg (other (by decide)), if_neg (other (by decide)),
    if_neg (other (by decide)), if_neg (other (by decide)), if_neg (other (by decide))]

/-! ## Keywords -/

/-- A small letter. -/
def isLower (b : Byte) : Bool :=
  decide ((chr 'a').toNat ≤ b.toNat) && decide (b.toNat ≤ (chr 'z').toNat)

theorem isLower_iff {b : Byte} : isLower b = true ↔ 0x61 ≤ b.toNat ∧ b.toNat ≤ 0x7A := by
  rw [isLower, Bool.and_eq_true, decide_eq_true_eq, decide_eq_true_eq]
  exact Iff.rfl

/-- A byte that is a word character in lower case is one as it stands. -/
theorem lowerCase_char {b : Byte} (char : isIdentChar (lowerCase b) = true) :
    isIdentChar b = true := by
  rw [isIdentChar_iff, isNameStart_iff, lowerCase_toNat] at char
  rw [isIdentChar_iff, isNameStart_iff]
  split at char <;> omega

theorem lowerCase_start {b : Byte} (lower : isLower (lowerCase b) = true) :
    isNameStart b = true := by
  rw [isLower_iff, lowerCase_toNat] at lower
  rw [isNameStart_iff]
  split at lower <;> omega

/-- The case fold of the lexer agrees with the lower case wherever one of them is a letter. -/
theorem rsmTolower_eq : ∀ b : Byte, isLower (rsmTolower b) = true ∨ isLower (lowerCase b) = true →
    rsmTolower b = lowerCase b := by
  decide +kernel

theorem rsmTolower_iff {b c : Byte} (lower : isLower c = true) :
    rsmTolower b = c ↔ lowerCase b = c := by
  constructor
  · rintro rfl
    exact (rsmTolower_eq b (.inl lower)).symm
  · rintro rfl
    exact rsmTolower_eq b (.inr lower)

theorem map_rsmTolower_iff {word letters : List Byte} (lower : letters.all isLower = true) :
    word.map rsmTolower = letters ↔ word.map lowerCase = letters := by
  rw [List.all_eq_true] at lower
  constructor
  · rintro rfl
    refine (List.map_congr_left fun b mem => ?_).symm
    exact rsmTolower_eq b (.inl (lower _ (List.mem_map_of_mem mem)))
  · rintro rfl
    refine List.map_congr_left fun b mem => ?_
    exact rsmTolower_eq b (.inr (lower _ (List.mem_map_of_mem mem)))

theorem RvmOpcode.mnemonic_lower (op : RvmOpcode) : op.mnemonic.all isLower = true := by
  cases op <;> rfl

/-- The opcode table recognizes the mnemonics, in any letter case. -/
theorem rsmLexerTokenizeOpcode_iff {word : List Byte} {op : RvmOpcode} :
    rsmLexerTokenizeOpcode word = some op ↔ word.map lowerCase = op.mnemonic := by
  rw [← map_rsmTolower_iff op.mnemonic_lower]
  constructor
  · intro h
    unfold rsmLexerTokenizeOpcode at h
    split at h
    iterate 4
      · next found =>
        rw [found]
        repeat' split at h
        all_goals
          cases h
          try simp only [RvmOpcode.mnemonic, List.map_cons, List.map_nil, *]
    · cases h
  · intro letters
    unfold rsmLexerTokenizeOpcode
    rw [letters]
    cases op <;> rfl

/-- The digit of a register is compared as it stands. -/
theorem register_digit (b : Byte) (r : RvmReg) :
    ((chr '0').toInt ≤ b.toInt ∧ b.toInt ≤ (chr '7').toInt) ∧
      Fin.ofNat 8 (b.toNat - (chr '0').toNat) = r ↔
    lowerCase b = chr '0' + BitVec.ofNat 8 r.val := by
  have := toInt_byte b
  have := r.isLt
  have zero : (chr '0').toInt = 0x30 ∧ (chr '7').toInt = 0x37 ∧ (chr '0').toNat = 0x30 := by decide
  rw [← BitVec.toNat_inj, lowerCase_toNat, BitVec.toNat_add, BitVec.toNat_ofNat, Fin.ext_iff,
    zero.1, zero.2.1, zero.2.2]
  show _ ∧ (b.toNat - 0x30) % 8 = r.val ↔ _ = (0x30 + r.val % 256) % 256
  split <;> omega

/-- The register table recognizes `rv0` to `rv7`, in any letter case. -/
theorem rsmLexerTokenizeReg_iff {word : List Byte} {r : RvmReg} :
    rsmLexerTokenizeReg word = some r ↔ word.map lowerCase = RvmReg.name r := by
  rcases word with _ | ⟨c0, _ | ⟨c1, _ | ⟨c2, _ | ⟨c3, rest⟩⟩⟩⟩
  case cons.cons.cons.nil =>
    have digit := register_digit c2 r
    have letters0 : rsmTolower c0 = chr 'r' ↔ lowerCase c0 = chr 'r' := rsmTolower_iff (by decide)
    have letters1 : rsmTolower c1 = chr 'v' ↔ lowerCase c1 = chr 'v' := rsmTolower_iff (by decide)
    simp only [rsmLexerTokenizeReg, RvmReg.name, List.map_cons, List.map_nil, List.cons.injEq,
      and_true, letters0, letters1, ← digit]
    by_cases letters : lowerCase c0 = chr 'r' ∧ lowerCase c1 = chr 'v'
    · by_cases range : (chr '0').toInt ≤ c2.toInt ∧ c2.toInt ≤ (chr '7').toInt
      · simp only [letters, range, and_self, ↓reduceIte, Option.some.injEq, true_and]
      · simp only [letters, range, and_self, ↓reduceIte, false_and, reduceCtorEq, and_false]
    · rw [if_neg letters, ← and_assoc]
      exact iff_of_false (Option.some_ne_none r).symm fun h => letters h.1
  all_goals
    refine iff_of_false (Option.some_ne_none r).symm fun h => ?_
    have length := congrArg List.length h
    simp only [RvmReg.name, List.map_cons, List.map_nil, List.length_cons,
      List.length_nil] at length
    omega

/-- No opcode has a `v` for its second letter. -/
theorem RvmOpcode.mnemonic_ne_name (op : RvmOpcode) (r : RvmReg) :
    op.mnemonic ≠ RvmReg.name r := by
  intro same
  have second := congrArg (fun word : List Byte => word[1]?) same
  cases op <;> cases second

section WordType

variable {word : RsmIdent}

theorem wordType_opcode {op : RvmOpcode} (spelled : word.bytes.map lowerCase = op.mnemonic) :
    wordType word = .opcode op := by
  rw [wordType, rsmLexerTokenizeOpcode_iff.mpr spelled]

theorem wordType_reg {r : RvmReg} (spelled : word.bytes.map lowerCase = RvmReg.name r) :
    wordType word = .reg r := by
  have other : rsmLexerTokenizeOpcode word.bytes = none := by
    refine Option.eq_none_iff_forall_ne_some.mpr fun op found => ?_
    rw [rsmLexerTokenizeOpcode_iff, spelled] at found
    exact op.mnemonic_ne_name r found.symm
  rw [wordType, other]
  dsimp only
  rw [rsmLexerTokenizeReg_iff.mpr spelled]

theorem wordType_ident (valid : word.IsName) : wordType word = .ident word := by
  have noOpcode : rsmLexerTokenizeOpcode word.bytes = none :=
    Option.eq_none_iff_forall_ne_some.mpr fun op found =>
      valid.noOpcode op (rsmLexerTokenizeOpcode_iff.mp found)
  have noReg : rsmLexerTokenizeReg word.bytes = none :=
    Option.eq_none_iff_forall_ne_some.mpr fun r found =>
      valid.noReg r (rsmLexerTokenizeReg_iff.mp found)
  rw [wordType, noOpcode]
  dsimp only
  rw [noReg]

end WordType

/-! ## The longest match -/

/-- No word goes on at the start of the text. -/
def WordEnds (text : List Byte) : Prop := ∀ b ∈ text.head?, isIdentChar b = false

/-- An identifier is scanned up to its end. -/
theorem scanIdent_append (name : RsmIdent) {text : List Byte} (ends : WordEnds text) :
    (scanIdent (name.bytes ++ text)).val = name := by
  obtain ⟨bytes, chars⟩ := name
  refine RsmIdent.bytes_injective ?_
  dsimp only
  induction bytes with
  | nil =>
    cases text with
    | nil => rfl
    | cons b text =>
      rw [List.nil_append, scanIdent, Traced.val_bind, dif_neg]
      · rfl
      · rw [ends b rfl]
        exact Bool.false_ne_true
  | cons b bytes ih =>
    rw [List.all_cons, Bool.and_eq_true] at chars
    rw [List.cons_append, scanIdent, Traced.val_bind, dif_pos chars.1, Traced.val_bind]
    exact congrArg (List.cons b) (ih chars.2)

/-! ## Numbers -/

/-- What ends a word is no digit of any base. -/
theorem digitValue_of_ends {b : Byte} (ends : isIdentChar b = false) : digitValue b = 36 := by
  rw [Bool.eq_false_iff, ne_eq, isIdentChar_iff, isNameStart_iff] at ends
  rw [digitValue, if_neg (by omega), if_neg (by omega), if_neg (by omega)]

theorem digitValue_lt_ten {b : Byte} (digit : isDigitChar b.toNat = true) :
    digitValue b < 10 ∧ isDigitChar b.toInt = true := by
  have := toInt_byte b
  rw [isDigitChar_iff] at digit ⊢
  rw [digitValue, if_pos (by omega)]
  omega

/-- The digits that `strtol` reads in front of the end of a word. -/
theorem takeWhile_digits {base : Nat} {digits text : List Byte} (bound : base ≤ 36)
    (small : ∀ c ∈ digits, digitValue c < base) (ends : WordEnds text) :
    (((digits ++ text).map digitValue).takeWhile fun d => decide (d < base)) =
      digits.map digitValue := by
  have stop : ((text.map digitValue).takeWhile fun d => decide (d < base)) = [] := by
    cases text with
    | nil => rfl
    | cons b text =>
      have value := digitValue_of_ends (ends b rfl)
      rw [List.map_cons, List.takeWhile_cons_of_neg]
      rw [value, decide_eq_true_eq]
      omega
  rw [List.map_append, List.takeWhile_append_of_pos, stop, List.append_nil]
  intro d mem
  obtain ⟨c, inside, rfl⟩ := List.mem_map.mp mem
  exact decide_eq_true (small c inside)

theorem strtol_digits {base skip : Nat} {str digits text : List Byte}
    (found : strtolBase str = (base, skip)) (split : str.drop skip = digits ++ text)
    (given : digits ≠ []) (bound : base ≤ 36) (small : ∀ c ∈ digits, digitValue c < base)
    (ends : WordEnds text) :
    strtol str = (min (digitsValue base digits : Int) LONG_MAX, skip + digits.length) := by
  have given : digits.map digitValue ≠ [] := fun none => given (List.map_eq_nil_iff.mp none)
  simp only [strtol, found, split, takeWhile_digits bound small ends, given, ↓reduceIte,
    List.length_map, List.foldl_map, digitsValue]

/-- A number begins with a digit. -/
theorem NumberText.first {v : Nat} {word : List Byte} (number : NumberText v word) :
    ∃ d ds, word = d :: ds ∧ isDigitChar d.toInt = true := by
  cases number with
  | @decimal d ds digits leading =>
    exact ⟨d, ds, rfl, (digitValue_lt_ten (digits d List.mem_cons_self)).2⟩
  | @hexadecimal x d ds mark digits => exact ⟨chr '0', x :: d :: ds, rfl, by decide⟩

/-- `strtol` reads a number up to its end. -/
theorem NumberText.strtol {v : Nat} {word text : List Byte} (number : NumberText v word)
    (ends : WordEnds text) :
    strtol (word ++ text) = (min (v : Int) LONG_MAX, word.length) := by
  cases number with
  | @decimal d ds digits leading =>
    have small : ∀ c ∈ d :: ds, digitValue c < 10 := fun c mem =>
      (digitValue_lt_ten (digits c mem)).1
    rcases strtolBase_cases d (ds ++ text) with ⟨x, e, es, zero, rest, mark, _, _⟩ |
      ⟨zero, found⟩ | ⟨_, found⟩
    · -- a lone zero is followed by no `x`
      rw [leading zero, List.nil_append] at rest
      have stop := ends x (by rw [rest]; rfl)
      rcases mark with rfl | rfl <;> cases stop
    · have single := leading zero
      subst single zero
      rw [List.cons_append,
        strtol_digits found rfl (List.cons_ne_nil _ _) (by decide) (by decide) ends]
      rfl
    · rw [List.cons_append,
        strtol_digits found rfl (List.cons_ne_nil d ds) (by decide) small ends, Nat.zero_add]
  | @hexadecimal x d ds mark digits =>
    have found : strtolBase (chr '0' :: x :: d :: ds ++ text) = (16, 2) :=
      if_pos ⟨rfl, mark, digits d List.mem_cons_self⟩
    rw [strtol_digits found rfl (List.cons_ne_nil d ds) (by decide) digits ends]
    rw [Nat.add_comm]
    rfl

/-- A number that fits into 31 bits is read up to its end. -/
theorem tokenizeNumber_append (lexer : RsmLexer) {v : SInt32} {word text : List Byte}
    (number : NumberText v.toNat word) (small : v.toNat < 0x80000000) (ends : WordEnds text) :
    (tokenizeNumber lexer (word ++ text)).val =
      (⟨.number v, word.length⟩, lexer.advance word.length) := by
  obtain ⟨d, ds, rfl, _⟩ := number.first
  have value : min (v.toNat : Int) LONG_MAX = v.toNat := by
    refine Int.min_eq_left ?_
    rw [LONG_MAX]
    omega
  have inside : ¬ ((v.toNat : Int) < INT32_MIN ∨ (v.toNat : Int) > INT32_MAX) := by
    rw [INT32_MIN, INT32_MAX]
    omega
  have some_ : ¬ (d :: ds).length = 0 := Nat.succ_ne_zero _
  have same : BitVec.ofInt 32 v.toNat = v := by
    rw [BitVec.ofInt_natCast, BitVec.ofNat_toNat, BitVec.setWidth_eq]
  unfold tokenizeNumber
  simp only [number.strtol ends, value, some_, inside, same, ↓reduceIte, Traced.val_pure]

end RocketVm
