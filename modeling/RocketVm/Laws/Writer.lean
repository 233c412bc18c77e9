import RocketVm.Laws.Keywords
import RocketVm.Text

/-!
# Writing tokens

The other direction of the lexer. A token that the lexer found in a text is proper: its name is a
name, its number is not negative (`sourceTokens_proper`). A proper token can be written, with the
names that the machine prints (`TokenText.printed`), and so can every sequence of proper tokens
(`exists_spelling`).
-/

namespace RocketVm

open Lib

/-! ## Numbers -/

theorem digitChar_lt_ten {d : Nat} (small : d < 10) :
    isDigitChar (digitChar d).toNat = true ∧ digitValue (digitChar d) = d := by
  interval_cases d <;> decide

theorem digitsValue_printU (n : Nat) : digitsValue 10 (printU n) = n := by
  have digits : ∀ ds : List Nat, (∀ d ∈ ds, d < 10) → ∀ m,
      (ds.map digitChar).foldl (fun n c => n * 10 + digitValue c) m =
        ds.foldl (fun n d => n * 10 + d) m := by
    intro ds small
    induction ds with
    | nil => exact fun m => rfl
    | cons d ds ih =>
      intro m
      rw [List.map_cons, List.foldl_cons, List.foldl_cons,
        (digitChar_lt_ten (small d List.mem_cons_self)).2,
        ih fun c mem => small c (List.mem_cons_of_mem d mem)]
  rw [digitsValue, printU, digits _ fun d mem => lt_of_mem_numeral (by decide) mem]
  exact ofNumeral_numeral 10 n

/-- A printed number is written in decimal. -/
theorem numberText_printU (n : Nat) : NumberText n (printU n) := by
  have value := digitsValue_printU n
  have chars : ∀ c ∈ printU n, isDigitChar c.toNat = true := by
    intro c mem
    obtain ⟨d, digit, rfl⟩ := List.mem_map.mp mem
    exact (digitChar_lt_ten (lt_of_mem_numeral (by decide) digit)).1
  have leading : ∀ d ds, printU n = d :: ds → d = chr '0' → ds = [] := by
    rintro d ds split rfl
    obtain ⟨d', ds', digits, first, rfl⟩ := List.map_eq_cons_iff.mp split
    have small : d' < 10 := @lt_of_mem_numeral 10 n d' (by decide)
      (by rw [digits]; exact List.mem_cons_self)
    have zero : d' = 0 := by
      rw [← (digitChar_lt_ten small).2, first]
      rfl
    subst zero
    rw [numeral_leading digits]
    rfl
  cases split : printU n with
  | nil => exact absurd (List.map_eq_nil_iff.mp split) (numeral_ne_nil 10 n)
  | cons d ds =>
    rw [split] at value chars
    have text := NumberText.decimal chars (leading d ds split)
    rwa [value] at text

theorem numberText_printD {v : SInt32} (small : v.toNat < 0x80000000) :
    NumberText v.toNat (printD v) := by
  have value : v.toInt = v.toNat := by
    rw [BitVec.toInt_eq_toNat_cond, if_pos (by omega)]
  rw [printD, value, if_neg (by omega)]
  exact numberText_printU v.toNat

/-! ## Proper tokens -/

/-- A token that can be written: its name is one, or its number is not negative. -/
def RsmTokenType.Proper : RsmTokenType → Prop
  | .ident name => name.IsName
  | .number v => v.toNat < 0x80000000
  | .invalid | .eof => False
  | _ => True

theorem wordType_proper {name : RsmIdent}
    (start : ∃ b bs, name.bytes = b :: bs ∧ isNameStart b = true) : (wordType name).Proper := by
  have is := (wordType_iff start).mp rfl
  generalize wordType name = type at is
  cases is with
  | opcode | reg => trivial
  | ident noOpcode noReg =>
    exact ⟨start, fun op same => noOpcode op (sameWord_opcode.mpr same),
      fun r same => noReg r (sameWord_reg.mpr same)⟩

theorem tokenizeNumber_proper (lexer : RsmLexer) (text : List Byte)
    (valid : (tokenizeNumber lexer text).val.1.type ≠ .invalid) :
    (tokenizeNumber lexer text).val.1.type.Proper := by
  have nonneg : 0 ≤ (strtol text).1 := by
    rw [strtol]
    exact le_min (Int.natCast_nonneg _) (Int.natCast_nonneg _)
  unfold tokenizeNumber at valid ⊢
  generalize strtol text = found at nonneg valid ⊢
  obtain ⟨value, size⟩ := found
  dsimp only at nonneg valid ⊢
  split
  · next none =>
    rw [if_pos none] at valid
    exact absurd rfl valid
  · next some_ =>
    split
    · next outside =>
      rw [if_neg some_, if_pos outside] at valid
      exact absurd rfl valid
    · next inside =>
      rw [INT32_MIN, INT32_MAX] at inside
      show (BitVec.ofInt 32 value).toNat < 0x80000000
      rw [BitVec.toNat_ofInt]
      omega

/-- **The lexer finds proper tokens**, besides the end and what is no token. -/
theorem tokenize_proper (lexer : RsmLexer)
    (running : (rsmLexerTokenize lexer).val.1.type.stops = false) :
    (rsmLexerTokenize lexer).val.1.type.Proper := by
  obtain ⟨blanks, comment, behind, _, _, skipped, here⟩ := exists_skipped lexer
  generalize lexer.advance (blanks ++ comment).length = mid at skipped here
  cases behind with
  | nil =>
    rw [rsmLexerTokenize_end skipped here] at running
    cases running
  | cons b text =>
    cases found : punctuation b with
    | some type =>
      rw [rsmLexerTokenize_punctuation skipped here found]
      unfold punctuation at found
      repeat' split at found
      all_goals cases found
      all_goals trivial
    | none =>
      by_cases start : isAlphaChar b.toInt = true ∨ b = chr '_'
      · have char : isIdentChar b = true :=
          isIdentChar_of_start (by rwa [isNameStart, Bool.or_eq_true, beq_iff_eq])
        obtain ⟨after, taken, _⟩ := scanIdent_split (b :: text)
        have length := scanIdent_pos char text
        rw [rsmLexerTokenize_word skipped here found start rfl]
        refine wordType_proper ?_
        generalize (scanIdent (b :: text)).val = name at taken length
        obtain ⟨c, cs, bytes⟩ := List.exists_cons_of_length_pos length
        rw [bytes, List.cons_append] at taken
        obtain ⟨rfl, _⟩ := List.cons.inj taken
        exact ⟨b, cs, bytes, by rwa [isNameStart, Bool.or_eq_true, beq_iff_eq]⟩
      · by_cases digit : isDigitChar b.toInt = true
        · rw [rsmLexerTokenize_number skipped here found start digit] at running ⊢
          refine tokenizeNumber_proper mid _ fun invalid => ?_
          rw [invalid] at running
          cases running
        · rw [rsmLexerTokenize_unexpected skipped here found start digit] at running
          cases running

theorem Reads.proper {lexer : RsmLexer} {ts : List RsmTokenType}
    (h : Reads (rsmParserAdvance lexer).val ts) : ∀ t ∈ ts, t ≠ .invalid → t.Proper := by
  induction ts generalizing lexer with
  | nil => exact fun t mem => absurd mem List.not_mem_nil
  | cons t ts ih =>
    obtain ⟨type, running, rest⟩ := h
    intro t' mem valid
    rcases List.mem_cons.mp mem with rfl | mem
    · rw [← type] at running valid ⊢
      refine tokenize_proper lexer ?_
      show (rsmParserAdvance lexer).val.token.type.stops = false
      generalize (rsmParserAdvance lexer).val.token.type = type at running valid
      cases type <;> first | rfl | exact absurd rfl running | exact absurd rfl valid
    · exact ih rest t' mem valid

theorem sourceTokens_proper {src : List Byte} {t : RsmTokenType} (mem : t ∈ sourceTokens src)
    (valid : t ≠ .invalid) : t.Proper :=
  (reads_sourceTokens src).proper t mem valid

/-! ## Texts of tokens -/

/-- A token as the machine prints it. -/
def RsmTokenType.print : RsmTokenType → List Byte
  | .opcode op => bytesOf (rvmOpcodeToString op.code)
  | .reg r => bytesOf (rvmRegToString r.val)
  | .ident name => name.bytes
  | .number v => printD v
  | .comma => bytesOf ","
  | .colon => bytesOf ":"
  | .lbracket => bytesOf "["
  | .rbracket => bytesOf "]"
  | .newline => bytesOf "\n"
  | .invalid | .eof => []

/-- What is printed for a proper token spells it. -/
theorem TokenText.printed {t : RsmTokenType} (proper : t.Proper) : TokenText t t.print := by
  cases t with
  | invalid | eof => exact proper.elim
  | opcode op => exact .opcode (rvmOpcodeToString_mnemonic op)
  | reg r => exact .reg (rvmRegToString_name r)
  | ident name => exact .ident proper
  | number v => exact .number (numberText_printD proper) proper
  | comma => exact .comma
  | colon => exact .colon
  | lbracket => exact .lbracket
  | rbracket => exact .rbracket
  | newline => exact .newline

theorem isBlank_space : ∀ b ∈ bytesOf " ", isBlank b = true := by decide

theorem no_blanks : ∀ b ∈ ([] : List Byte), isBlank b = true := List.forall_mem_nil _

/-- A token behind a blank. -/
theorem Spells.spaced {t : RsmTokenType} {ts : List RsmTokenType} {text : List Byte}
    (proper : t.Proper)
    (apart : t.isWord = true → (ts.head?.any RsmTokenType.isWord) = true → BeginsBlank text)
    (rest : Spells ts text) : Spells (t :: ts) (bytesOf " " ++ (t.print ++ text)) := by
  have spelled := @Spells.token t ts (bytesOf " ") [] t.print text isBlank_space .none
    (absurd rfl) (.printed proper) apart rest
  rwa [List.append_nil, List.append_assoc] at spelled

/-- A token right behind another one. -/
theorem Spells.close {t : RsmTokenType} {ts : List RsmTokenType} {text : List Byte}
    (proper : t.Proper)
    (apart : t.isWord = true → (ts.head?.any RsmTokenType.isWord) = true → BeginsBlank text)
    (rest : Spells ts text) : Spells (t :: ts) (t.print ++ text) :=
  @Spells.token t ts [] [] t.print text no_blanks .none (absurd rfl) (.printed proper) apart rest

theorem beginsBlank_space (text : List Byte) : BeginsBlank (bytesOf " " ++ text) :=
  ⟨chr ' ', text, rfl, by decide⟩

/-- Every sequence of proper tokens can be written. -/
theorem exists_spelling {ts : List RsmTokenType} (proper : ∀ t ∈ ts, t.Proper) :
    ∃ text, Spells ts text ∧ (ts ≠ [] → BeginsBlank text) := by
  induction ts with
  | nil => exact ⟨[], @Spells.done [] [] no_blanks .none, absurd rfl⟩
  | cons t ts ih =>
    obtain ⟨text, spelled, begins⟩ := ih fun t' mem => proper t' (List.mem_cons_of_mem t mem)
    refine ⟨_, .spaced (proper t List.mem_cons_self) (fun _ word => begins ?_) spelled,
      fun _ => beginsBlank_space _⟩
    rintro rfl
    cases word

end RocketVm
