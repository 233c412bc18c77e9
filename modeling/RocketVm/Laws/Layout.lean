import RocketVm.Laws.Calls
import RocketVm.Laws.Spelling

/-!
# The layout of a text

Whatever the text is, the calls of the tokenizer divide it into chunks, up to the first call that
stops. Nothing is read twice, and a newline is only ever the word of a newline token.
-/

namespace RocketVm

open Lib

/-! ## Runs -/

/-- The token of the next call. -/
def RsmLexer.token (lexer : RsmLexer) : RsmToken := (rsmLexerTokenize lexer).val.1

/-- Where the lexer is after the next call. -/
def RsmLexer.next (lexer : RsmLexer) : RsmLexer := (rsmLexerTokenize lexer).val.2

theorem RsmLexer.callCase (lexer : RsmLexer) : CallCase lexer (lexer.token, lexer.next) :=
  rsmLexerTokenize_cases lexer

/-- A call that does not stop takes a chunk. -/
theorem exists_chunk {lexer : RsmLexer} (goesOn : lexer.token.type.stops = false) :
    ∃ chunk : Chunk, chunk.token = lexer.token ∧ lexer.rest = chunk.bytes ++ lexer.next.rest ∧
      lexer.next = lexer.advance chunk.bytes.length := by
  have case_ := lexer.callCase
  generalize lexer.token = token at case_ goesOn ⊢
  generalize lexer.next = next at case_ ⊢
  cases case_ with
  | @token chunk text more =>
    refine ⟨chunk, rfl, ?_, rfl⟩
    rw [RsmLexer.rest_advance more]
    exact more
  | eof => cases goesOn
  | invalid => cases goesOn

/-- The first `n` calls divide the text that they take, when none of them stops. -/
theorem exists_chunks (lexer : RsmLexer) {n : Nat}
    (goesOn : ∀ k < n, (RsmLexer.next^[k] lexer).token.type.stops = false) :
    ∃ chunks : List Chunk,
      chunks.map Chunk.token = (List.range n).map (fun k => (RsmLexer.next^[k] lexer).token) ∧
      lexer.rest = chunks.flatMap Chunk.bytes ++ (RsmLexer.next^[n] lexer).rest ∧
      RsmLexer.next^[n] lexer = lexer.advance (chunks.flatMap Chunk.bytes).length := by
  induction n generalizing lexer with
  | zero => exact ⟨[], rfl, rfl, rfl⟩
  | succ n ih =>
    obtain ⟨chunk, token, rest, next⟩ := exists_chunk (goesOn 0 (Nat.succ_pos n))
    obtain ⟨chunks, tokens, rest', behind⟩ := ih lexer.next fun k small =>
      goesOn (k + 1) (Nat.succ_lt_succ small)
    rw [Function.iterate_zero, id] at token rest next
    refine ⟨chunk :: chunks, ?_, ?_, ?_⟩
    · rw [List.range_succ_eq_map, List.map_cons, List.map_cons, List.map_map, token, tokens]
      rfl
    · rw [List.flatMap_cons, List.append_assoc, rest, rest']
      rfl
    · rw [Function.iterate_succ_apply, behind, next, RsmLexer.advance_advance, List.flatMap_cons,
        List.length_append]

theorem RsmLexer.advance_inside {lexer : RsmLexer} {taken text : List Byte}
    (inside : lexer.pos ≤ lexer.src.length) (more : lexer.rest = taken ++ text) :
    (lexer.advance taken.length).pos ≤ lexer.src.length ∧
      (text = [] → (lexer.advance taken.length).pos = lexer.src.length) := by
  have length := congrArg List.length more
  rw [RsmLexer.rest, List.length_drop, List.length_append] at length
  refine ⟨?_, ?_⟩
  · show lexer.pos + taken.length ≤ _
    omega
  · rintro rfl
    show lexer.pos + taken.length = _
    rw [List.length_nil] at length
    omega

/-- A call ends inside the text. It ends behind where it began unless it has found the end, and
then it is there. -/
def RsmLexer.Advances (lexer : RsmLexer) : Prop :=
  lexer.next.src = lexer.src ∧ lexer.next.pos ≤ lexer.src.length ∧
    (lexer.token.type = .eof ∧ lexer.next.pos = lexer.src.length ∨
      lexer.token.type ≠ .eof ∧ lexer.pos < lexer.next.pos)

theorem RsmLexer.advances {lexer : RsmLexer} (inside : lexer.pos ≤ lexer.src.length) :
    lexer.Advances := by
  have behind : ∀ {taken : List Byte}, taken ≠ [] →
      lexer.pos < (lexer.advance taken.length).pos := by
    intro taken given
    have := List.length_pos_iff.mpr given
    show lexer.pos < lexer.pos + taken.length
    omega
  unfold Advances
  have case_ := lexer.callCase
  generalize lexer.token = token at case_ ⊢
  generalize lexer.next = next at case_ ⊢
  cases case_ with
  | token chunk more =>
    have noEof : chunk.token.type ≠ .eof := fun eof => by
      have goesOn := chunk.goesOn
      rw [eof] at goesOn
      cases goesOn
    exact ⟨rfl, (advance_inside inside more).1, .inr ⟨noEof,
      behind (List.append_ne_nil_of_right_ne_nil _ chunk.given)⟩⟩
  | eof blank remark more =>
    have at_ := advance_inside inside (more.trans (List.append_nil _).symm)
    exact ⟨rfl, at_.1, .inl ⟨rfl, at_.2 rfl⟩⟩
  | invalid blank given line more =>
    exact ⟨rfl, (advance_inside inside more).1, .inr ⟨nofun,
      behind (List.append_ne_nil_of_right_ne_nil _ given)⟩⟩

/-- Some call stops, and before it there are no more than bytes. -/
theorem exists_stop {lexer : RsmLexer} {m : Nat} (left : lexer.left ≤ m) :
    ∃ n ≤ m, (∀ k < n, (RsmLexer.next^[k] lexer).token.type.stops = false) ∧
      (RsmLexer.next^[n] lexer).token.type.stops = true := by
  induction m generalizing lexer with
  | zero =>
    have eof : lexer.token.type = .eof :=
      (rsmLexerTokenize_left lexer).2.resolve_right (by omega)
    refine ⟨0, Nat.le_refl _, fun k small => absurd small (Nat.not_lt_zero k), ?_⟩
    rw [Function.iterate_zero, id, eof]
    rfl
  | succ m ih =>
    cases stops : lexer.token.type.stops with
    | true => exact ⟨0, Nat.zero_le _, fun k small => absurd small (Nat.not_lt_zero k), stops⟩
    | false =>
      have less : lexer.next.left < lexer.left := by
        refine (rsmLexerTokenize_left lexer).2.resolve_left fun eof => ?_
        rw [show lexer.token.type = .eof from eof] at stops
        cases stops
      obtain ⟨n, small, goesOn, stop⟩ := @ih lexer.next (by omega)
      refine ⟨n + 1, Nat.succ_le_succ small, fun k before => ?_, stop⟩
      cases k with
      | zero => exact stops
      | succ k => exact goesOn k (Nat.lt_of_succ_lt_succ before)

/-- After finitely many calls one stops. What the calls before it have taken is, byte for byte, the
chunks of their tokens; that call takes blanks and a comment, or blanks and a piece of a line. -/
def RsmLexer.Divides (lexer : RsmLexer) : Prop :=
  ∃ (n : Nat) (chunks : List Chunk),
    (∀ k < n, (RsmLexer.next^[k] lexer).token.type.stops = false) ∧
    (RsmLexer.next^[n] lexer).token.type.stops = true ∧
    chunks.map Chunk.token = (List.range n).map (fun k => (RsmLexer.next^[k] lexer).token) ∧
    lexer.rest = chunks.flatMap Chunk.bytes ++ (RsmLexer.next^[n] lexer).rest ∧
    RsmLexer.next^[n] lexer = lexer.advance (chunks.flatMap Chunk.bytes).length ∧
    CallCase (RsmLexer.next^[n] lexer)
      ((RsmLexer.next^[n] lexer).token, RsmLexer.next^[n + 1] lexer)

theorem RsmLexer.divides (lexer : RsmLexer) : lexer.Divides := by
  obtain ⟨n, _, goesOn, stop⟩ := exists_stop (Nat.le_refl lexer.left)
  obtain ⟨chunks, tokens, rest, behind⟩ := exists_chunks lexer goesOn
  refine ⟨n, chunks, goesOn, stop, tokens, rest, behind, ?_⟩
  rw [Function.iterate_succ_apply']
  exact RsmLexer.callCase _

/-- **The layout of a text.** From every position inside the text every call advances to the end of
the text, the calls divide the text into the chunks of their tokens, and the parser ends with at
most one call for each byte and one more. -/
theorem lexing_partitions (lexer : RsmLexer) (inside : lexer.pos ≤ lexer.src.length) :
    lexer.Advances ∧ lexer.Divides ∧
    ∀ (realloc : Nat → Bool) (program : RsmProgram),
      (rsmParserParse realloc lexer program).val.isSome = true ∧
      (rsmParserParse realloc lexer program).count .tokenize ≤ lexer.src.length + 1 := by
  refine ⟨lexer.advances inside, lexer.divides, fun realloc program =>
    ⟨rsmParserParse_isSome realloc lexer program, ?_⟩⟩
  have calls := rsmParserParse_calls realloc lexer program
  have left : lexer.left ≤ lexer.src.length := by
    rw [RsmLexer.left, RsmLexer.rest, List.length_drop]
    exact Nat.sub_le _ _
  omega

theorem lexing_partitions_jump :
    (rsmLexerCreate jumpHereSource).Advances ∧ (rsmLexerCreate jumpHereSource).Divides ∧
    ∀ (realloc : Nat → Bool) (program : RsmProgram),
      (rsmParserParse realloc (rsmLexerCreate jumpHereSource) program).val.isSome = true ∧
      (rsmParserParse realloc (rsmLexerCreate jumpHereSource) program).count .tokenize ≤
        jumpHereSource.length + 1 :=
  lexing_partitions (rsmLexerCreate jumpHereSource) (Nat.zero_le _)

end RocketVm
