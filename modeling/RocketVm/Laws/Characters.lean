import RocketVm.Laws.Layout

/-!
# Arguments of the character functions

The functions of `ctype.h` are defined for EOF and for the values of `unsigned char`. The blank loop
of the tokenizer converts its bytes; the other calls pass a signed `char`. Which texts these calls
are wrong for is `ctype_domain_iff`.
-/

namespace RocketVm

open Lib

/-- The argument of a call of a `ctype.h` function is EOF or an `unsigned char`. -/
def RsmEvent.InDomain : RsmEvent → Prop
  | .ctype arg => arg = -1 ∨ (0 ≤ arg ∧ arg ≤ 255)
  | _ => True

/-- As a `char`, the byte is below EOF. -/
def Foreign (b : Byte) : Prop := 0x80 ≤ b.toNat ∧ b.toNat ≤ 0xFE

/-- Behind the blanks, and behind the identifier if one begins there, is a foreign byte. -/
inductive MeetsForeign : List Byte → Prop
  | first {blanks b text} (blank : ∀ c ∈ blanks, isBlank c = true) (foreign : Foreign b) :
      MeetsForeign (blanks ++ b :: text)
  | behindWord {blanks b text} {word : RsmIdent} (blank : ∀ c ∈ blanks, isBlank c = true)
      (start : ∃ c cs, word.bytes = c :: cs ∧ isNameStart c = true) (foreign : Foreign b) :
      MeetsForeign (blanks ++ (word.bytes ++ b :: text))

/-! ## One character -/

theorem inDomain_signed (b : Byte) : (RsmEvent.ctype b.toInt).InDomain ↔ ¬ Foreign b := by
  have := toInt_byte b
  have := b.isLt
  show (b.toInt = -1 ∨ _) ↔ ¬ (_ ∧ _)
  omega

theorem inDomain_unsigned (b : Byte) : (RsmEvent.ctype b.toNat).InDomain := by
  have := b.isLt
  show _ ∨ _
  omega

theorem ctypeCall_inDomain {accepts : Int → Bool} {arg : Int} :
    (ctypeCall accepts arg).All RsmEvent.InDomain ↔ (RsmEvent.ctype arg).InDomain := by
  rw [ctypeCall, Traced.all_bind, Traced.all_emit]
  exact and_iff_left (Traced.all_pure _ _)

theorem Foreign.ne_chr {b : Byte} (foreign : Foreign b) {c : Char} (ascii : c.toNat < 128) :
    b ≠ chr c := by
  intro same
  rw [eq_chr_iff (by omega)] at same
  unfold Foreign at foreign
  omega

/-- A foreign byte is in no class of characters. -/
theorem Foreign.no_class {b : Byte} (foreign : Foreign b) :
    isBlank b = false ∧ isIdentChar b = false ∧ punctuation b = none := by
  refine ⟨?_, ?_, ?_⟩
  · rw [Bool.eq_false_iff, ne_eq, isBlank_iff]
    unfold Foreign at foreign
    omega
  · rw [Bool.eq_false_iff, ne_eq, isIdentChar_iff, isNameStart_iff]
    unfold Foreign at foreign
    omega
  · rw [punctuation, if_neg (foreign.ne_chr (by decide)), if_neg (foreign.ne_chr (by decide)),
      if_neg (foreign.ne_chr (by decide)), if_neg (foreign.ne_chr (by decide)),
      if_neg (foreign.ne_chr (by decide))]

/-! ## Loops -/

theorem skipTrivia_inDomain (inside : Bool) (text : List Byte) :
    (skipTrivia inside text).All RsmEvent.InDomain := by
  have space : ∀ b : Byte, (isspace b.toNat).All RsmEvent.InDomain := fun b =>
    ctypeCall_inDomain.mpr (inDomain_unsigned b)
  have more : ∀ {x : Traced RsmEvent Nat}, x.All RsmEvent.InDomain →
      (x >>= fun skipped => pure (skipped + 1)).All RsmEvent.InDomain := by
    intro x all
    exact (Traced.all_bind _ _ _).mpr ⟨all, Traced.all_pure _ _⟩
  induction text generalizing inside with
  | nil => cases inside <;> exact Traced.all_pure _ _
  | cons b text ih =>
    cases inside with
    | false =>
      rw [skipTrivia, Traced.all_bind]
      refine ⟨space b, ?_⟩
      split
      · exact more (ih false)
      · split
        · exact more (ih true)
        · exact Traced.all_pure _ _
    | true =>
      rw [skipTrivia]
      split
      · exact more (ih true)
      · exact (Traced.all_bind _ _ _).mpr ⟨space b, Traced.all_pure _ _⟩

/-- The word loop passes the byte behind the word. -/
theorem scanIdent_inDomain (word : RsmIdent) {text : List Byte} (ends : WordEnds text) :
    (scanIdent (word.bytes ++ text)).All RsmEvent.InDomain ↔ ∀ b ∈ text.head?, ¬ Foreign b := by
  obtain ⟨bytes, chars⟩ := word
  dsimp only
  induction bytes with
  | nil =>
    cases text with
    | nil => exact iff_of_true (Traced.all_pure _ _) forall_head_nil
    | cons b text =>
      have stop : ¬ isIdentChar b = true := Bool.eq_false_iff.mp (ends b rfl)
      rw [List.nil_append, scanIdent, Traced.all_bind, dif_neg stop, isalnum, ctypeCall_inDomain,
        inDomain_signed, and_iff_left (Traced.all_pure _ _)]
      exact ⟨fun ok => forall_head_cons ok text, fun all => all b rfl⟩
  | cons b bytes ih =>
    rw [List.all_cons, Bool.and_eq_true] at chars
    have known : ¬ Foreign b := fun foreign =>
      Bool.false_ne_true (foreign.no_class.2.1.symm.trans chars.1)
    rw [List.cons_append, scanIdent, Traced.all_bind, dif_pos chars.1, Traced.all_bind, isalnum,
      ctypeCall_inDomain, inDomain_signed, and_iff_right known, and_iff_left (Traced.all_pure _ _)]
    exact ih chars.2

theorem error_inDomain {format : String} {args : List RsmArg} {result : RsmToken × RsmLexer} :
    (do Traced.emit (.error format args); return result :
      Traced RsmEvent (RsmToken × RsmLexer)).All RsmEvent.InDomain :=
  (Traced.all_bind _ _ _).mpr ⟨(Traced.all_emit _ _).mpr trivial, Traced.all_pure _ _⟩

theorem tokenizeNumber_inDomain (lexer : RsmLexer) (text : List Byte) :
    (tokenizeNumber lexer text).All RsmEvent.InDomain := by
  unfold tokenizeNumber
  dsimp only
  split
  · exact error_inDomain
  · split
    · exact error_inDomain
    · exact Traced.all_pure _ _

/-! ## One call -/

section Token

variable {lexer mid : RsmLexer} {b : Byte} {text : List Byte}
  (skipped : lexer.advance (skipTrivia false lexer.rest).val = mid)
include skipped

theorem tokenize_inDomain_end (more : mid.rest = []) :
    (rsmLexerTokenize lexer).All RsmEvent.InDomain := by
  rw [rsmLexerTokenize, Traced.all_bind, Traced.all_bind, skipped]
  refine ⟨(Traced.all_emit _ _).mpr trivial, skipTrivia_inDomain _ _, ?_⟩
  simp only [more]
  exact Traced.all_pure _ _

variable (more : mid.rest = b :: text)
include more

theorem tokenize_inDomain_punctuation {type : RsmTokenType} (found : punctuation b = some type) :
    (rsmLexerTokenize lexer).All RsmEvent.InDomain := by
  rw [rsmLexerTokenize, Traced.all_bind, Traced.all_bind, skipped]
  refine ⟨(Traced.all_emit _ _).mpr trivial, skipTrivia_inDomain _ _, ?_⟩
  simp only [more, found]
  exact Traced.all_pure _ _

/-- Another byte is passed as it stands, and if a word begins with it so is the rest of the word. -/
theorem tokenize_inDomain_iff (other : punctuation b = none) :
    (rsmLexerTokenize lexer).All RsmEvent.InDomain ↔ ¬ Foreign b ∧
      (isNameStart b = true → (scanIdent (b :: text)).All RsmEvent.InDomain) := by
  have start : (ctypeCall isAlphaChar b.toInt).val = true ∨ b = chr '_' ↔ isNameStart b = true := by
    rw [isNameStart, Bool.or_eq_true, beq_iff_eq]
    rfl
  rw [rsmLexerTokenize, Traced.all_bind, Traced.all_bind, skipped]
  rw [and_iff_right ((Traced.all_emit _ _).mpr trivial), and_iff_right (skipTrivia_inDomain _ _)]
  simp only [more, other]
  rw [Traced.all_bind, isalpha, ctypeCall_inDomain, inDomain_signed]
  refine and_congr_right fun known => ?_
  by_cases word : isNameStart b = true
  · rw [if_pos (start.mpr word), Traced.all_bind, and_iff_left (Traced.all_pure _ _)]
    exact ⟨fun all _ => all, fun all => all word⟩
  · rw [if_neg (mt start.mp word), Traced.all_bind, isdigit, ctypeCall_inDomain, inDomain_signed]
    refine iff_of_true ⟨known, ?_⟩ fun h => absurd h word
    split
    · exact tokenizeNumber_inDomain _ _
    · exact error_inDomain

end Token

/-- A foreign byte that is met is passed. -/
theorem MeetsForeign.passed {lexer : RsmLexer} (meets : MeetsForeign lexer.rest) :
    ¬ (rsmLexerTokenize lexer).All RsmEvent.InDomain := by
  intro all
  generalize here : lexer.rest = rest at meets
  cases meets with
  | @first blanks b text blank foreign =>
    obtain ⟨isBlank_, _, other⟩ := foreign.no_class
    have begins : TokenBegins (b :: text) :=
      forall_head_cons ⟨isBlank_, foreign.ne_chr (by decide)⟩ _
    obtain ⟨skipped, more⟩ := skip_blanks blank begins here
    exact ((tokenize_inDomain_iff skipped more other).mp all).1 foreign
  | @behindWord blanks b text word blank start foreign =>
    obtain ⟨c, cs, bytes, nameStart⟩ := start
    obtain ⟨isBlank_, noComment, other⟩ := isIdentChar_begins (isIdentChar_of_start nameStart)
    have begins : TokenBegins (word.bytes ++ b :: text) := by
      rw [bytes]
      exact forall_head_cons ⟨isBlank_, noComment⟩ _
    obtain ⟨skipped, more⟩ := skip_blanks blank begins here
    have ends : WordEnds (b :: text) := forall_head_cons foreign.no_class.2.1 _
    have scan := scanIdent_inDomain word ends
    rw [bytes, List.cons_append] at more scan
    have known := scan.mp (((tokenize_inDomain_iff skipped more other).mp all).2 nameStart)
    exact known b rfl foreign

/-- The word loop stays in the domain where no identifier ends at a foreign byte. -/
theorem scanIdent_inDomain_of_not_meets {blanks text : List Byte} {b : Byte}
    (blank : ∀ c ∈ blanks, isBlank c = true) (none : ¬ MeetsForeign (blanks ++ b :: text))
    (start : isNameStart b = true) : (scanIdent (b :: text)).All RsmEvent.InDomain := by
  have length := scanIdent_pos (isIdentChar_of_start start) text
  obtain ⟨behind, taken, ends⟩ := scanIdent_split (b :: text)
  generalize (scanIdent (b :: text)).val = word at taken length
  have begins : ∃ c cs, word.bytes = c :: cs ∧ isNameStart c = true := by
    cases bytes : word.bytes with
    | nil =>
      rw [bytes] at length
      cases length
    | cons c cs =>
      rw [bytes] at taken
      cases taken
      exact ⟨b, cs, rfl, start⟩
  rw [taken] at none ⊢
  rw [scanIdent_inDomain word ends]
  intro b' head foreign
  cases behind with
  | nil => cases head
  | cons b'' text' =>
    cases head
    exact none (.behindWord blank begins foreign)

/-- **The domain of the character functions.** In a call of the tokenizer every argument of
`isspace`, `isalpha`, `isalnum` and `isdigit` is EOF or an `unsigned char` if and only if no byte
from 0x80 to 0xFE is where the token begins or where the identifier ends. -/
theorem ctype_domain_iff (lexer : RsmLexer) :
    (rsmLexerTokenize lexer).All RsmEvent.InDomain ↔ ¬ MeetsForeign lexer.rest := by
  refine ⟨fun all meets => meets.passed all, fun none => ?_⟩
  obtain ⟨blanks, comment, behind, gap, split, skipped, more⟩ := exists_skipped lexer
  cases behind with
  | nil => exact tokenize_inDomain_end skipped more
  | cons b text =>
    cases other : punctuation b with
    | some type => exact tokenize_inDomain_punctuation skipped more other
    | none =>
      obtain rfl := gap.comment_nil other
      rw [List.append_nil] at split
      rw [split] at none
      exact (tokenize_inDomain_iff skipped more other).mpr
        ⟨fun foreign => none (.first gap.blank foreign),
          scanIdent_inDomain_of_not_meets gap.blank none⟩

/-- A source that begins with the first byte of an accented letter. -/
theorem foreign_byte_passed :
    ¬ (rsmLexerTokenize (rsmLexerCreate [0xC3])).All RsmEvent.InDomain := by
  intro all
  have passed := all (.ctype (-61)) (by decide)
  unfold RsmEvent.InDomain at passed
  omega

end RocketVm
