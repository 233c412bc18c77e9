import RocketVm.Laws.Emission
import RocketVm.Laws.Encoder
import RocketVm.Laws.Reports

/-!
# The commands as a whole

What `rocketasm` and `rocketrun` do for any arguments, files and outcomes of the library calls:
when `rocketasm` succeeds or fails and which file it writes (`rsm_main_succeeds_iff`,
`rsm_main_fails_iff`), and what the two return codes say about what was reported
(`rsm_main_reports`, `rvm_main_reports`). As in the model the assertions are compiled out.
-/

namespace RocketVm

open Lib Traced

/-! ## Arguments -/

/-- What an argument list is made of: input paths, and output paths behind a `-o`. -/
inductive RsmArgument
  | input (path : String) (other : path ≠ "-o")
  | output (path : String)

def RsmArgument.words : RsmArgument → List String
  | .input path _ => [path]
  | .output path => ["-o", path]

def RsmArgument.input? : RsmArgument → Option String
  | .input path _ => some path
  | .output _ => none

def RsmArgument.output? : RsmArgument → Option String
  | .input _ _ => none
  | .output path => some path

/-- The paths an argument list gives: the last input path and the last output path, `out.rvm` where
there is none. -/
def Gives (args : List String) (input : Option String) (output : String) : Prop :=
  ∃ parts : List RsmArgument, args = parts.flatMap RsmArgument.words ∧
    input = (parts.filterMap RsmArgument.input?).getLast? ∧
    output = ((parts.filterMap RsmArgument.output?).getLast?).getD "out.rvm"

theorem getLast?_getD_cons {α : Type} (a b : α) (l : List α) :
    ((a :: l).getLast?).getD b = (l.getLast?).getD a := by
  rw [List.getLast?_cons]
  rfl

theorem scanArgs_input {path : String} (other : path ≠ "-o") (input : Option String)
    (output : String) (rest : List String) :
    scanArgs input output (path :: rest) = scanArgs (some path) output rest := by
  cases rest with
  | nil => exact if_neg other
  | cons arg rest => exact if_neg other

theorem scanArgs_words (parts : List RsmArgument) (input : Option String) (output : String)
    (rest : List String) :
    scanArgs input output (parts.flatMap RsmArgument.words ++ rest) =
      scanArgs ((parts.filterMap RsmArgument.input?).getLast?.or input)
        (((parts.filterMap RsmArgument.output?).getLast?).getD output) rest := by
  induction parts generalizing input output with
  | nil => rfl
  | cons part parts ih =>
    cases part with
    | input path other =>
      show scanArgs input output (path :: (parts.flatMap RsmArgument.words ++ rest)) =
        scanArgs ((path :: parts.filterMap RsmArgument.input?).getLast?.or input) _ rest
      rw [scanArgs_input other, ih, List.getLast?_cons]
      cases (parts.filterMap RsmArgument.input?).getLast? <;> rfl
    | output path =>
      show scanArgs input output ("-o" :: path :: (parts.flatMap RsmArgument.words ++ rest)) =
        scanArgs _ ((path :: parts.filterMap RsmArgument.output?).getLast?.getD output) rest
      rw [scanArgs, if_pos rfl, ih, getLast?_getD_cons]
      rfl

/-- Every argument list consists of paths, but for a last `-o` with nothing behind it. -/
theorem exists_parts (args : List String) : ∃ parts : List RsmArgument,
    args = parts.flatMap RsmArgument.words ∨ args = parts.flatMap RsmArgument.words ++ ["-o"] := by
  fun_induction scanArgs none "out.rvm" args with
  | case1 => exact ⟨[], .inl rfl⟩
  | case2 => exact ⟨[], .inr rfl⟩
  | case3 _ _ arg other => exact ⟨[.input arg other], .inl rfl⟩
  | case4 _ _ path args ih =>
    obtain ⟨parts, rfl | rfl⟩ := ih
    · exact ⟨.output path :: parts, .inl rfl⟩
    · exact ⟨.output path :: parts, .inr rfl⟩
  | case5 _ _ arg path args other ih =>
    obtain ⟨parts, same | same⟩ := ih
    · exact ⟨.input arg other :: parts, .inl (congrArg (List.cons arg) same)⟩
    · exact ⟨.input arg other :: parts, .inr (congrArg (List.cons arg) same)⟩

/-- **Arguments.** The argument loop finds the paths that the arguments give. -/
theorem scanArgs_iff {args : List String} {input : Option String} {output : String} :
    scanArgs none "out.rvm" args = some (input, output) ↔ Gives args input output := by
  constructor
  · intro scanned
    obtain ⟨parts, rfl | rfl⟩ := exists_parts args
    · have found := scanArgs_words parts none "out.rvm" []
      rw [List.append_nil, scanned, scanArgs, Option.or_none] at found
      obtain ⟨rfl, rfl⟩ := Prod.mk.inj (Option.some.inj found)
      exact ⟨parts, rfl, rfl, rfl⟩
    · rw [scanArgs_words, scanArgs, if_pos rfl] at scanned
      cases scanned
  · rintro ⟨parts, rfl, rfl, rfl⟩
    have found := scanArgs_words parts none "out.rvm" []
    rwa [List.append_nil, scanArgs, Option.or_none] at found

/-! ## Reports -/

/-- The event of a command is no report of an error. -/
def CommandEvent.Silent {ε : Type} (silent : ε → Prop) : CommandEvent ε → Prop
  | .stderr _ | .perror _ | .error _ => False
  | .inner e => silent e
  | .stdout _ | .listing _ => True

/-- A command that returns 0 and has reported nothing, or -1 and has reported something. -/
structure Honest (x : RsmMain) : Prop where
  returns : ∃ ret files, x.val = some (ret, files) ∧
    (ret = 0 ∧ x.All (CommandEvent.Silent RsmEvent.Silent) ∨
      ret = -1 ∧ ¬ x.All (CommandEvent.Silent RsmEvent.Silent))

section Honest

variable {files : Files}

theorem Honest.succeeds : Honest (pure (some (0, files))) :=
  ⟨0, files, rfl, .inl ⟨rfl, all_pure _ _⟩⟩

theorem Honest.fails {e : CommandEvent RsmEvent} (report : ¬ e.Silent RsmEvent.Silent) :
    Honest (do Traced.emit e; return some (-1, files)) :=
  ⟨-1, files, rfl, .inr ⟨rfl, fun all => report ((all_emit _ _).mp ((all_bind _ _ _).mp all).1)⟩⟩

/-- What goes before without a report does not matter. -/
theorem Honest.seq {α : Type} {x : Traced (CommandEvent RsmEvent) α} {f : α → RsmMain}
    (silent : x.All (CommandEvent.Silent RsmEvent.Silent)) (rest : Honest (f x.val)) :
    Honest (x >>= f) := by
  obtain ⟨ret, files, value, outcome⟩ := rest.returns
  exact ⟨ret, files, value, by rwa [all_bind, and_iff_right silent]⟩

/-- What goes before matters no more when an error is reported at the end. -/
theorem Honest.failed {α : Type} {x : Traced (CommandEvent RsmEvent) α} {f : α → RsmMain}
    (value : (f x.val).val = some (-1, files))
    (report : ¬ (f x.val).All (CommandEvent.Silent RsmEvent.Silent)) : Honest (x >>= f) :=
  ⟨-1, files, value, .inr ⟨rfl, fun all => report ((all_bind _ _ _).mp all).2⟩⟩

end Honest

theorem dumpProgram_silent (program : RsmProgram) :
    (dumpProgram program).All (CommandEvent.Silent RsmEvent.Silent) := by
  simp only [dumpProgram, all_bind, all_emit]
  exact ⟨trivial, trivial, trivial, trivial, trivial⟩

theorem rsmAssemble_honest (host : RsmHost) (output : String) (program : RsmProgram) :
    Honest (rsmAssemble host output program) := by
  unfold rsmAssemble
  refine .seq ((all_mapEvents _ _ _).mpr (rsmResolveLabels_silent program)) ?_
  split
  · exact .fails id
  · have emission : ∀ x : Traced (CommandEvent RsmEvent) (Int × List Byte),
        (x.val.1 ≠ -1 → x.All (CommandEvent.Silent RsmEvent.Silent)) → Honest (do
          let emitted ← x
          if emitted.1 = -1 then
            Traced.emit (.error "rsm_emit_binary failed")
            return some (-1, host.files.write output emitted.2)
          else
            return some (0, host.files.write output emitted.2)) := by
      intro x silent
      by_cases failed : x.val.1 = -1
      · refine @Honest.failed (host.files.write output x.val.2) _ _ _ ?_ fun all => ?_
        · rw [if_pos failed]
          rfl
        · rw [if_pos failed, all_bind, all_emit] at all
          exact all.1
      · refine .seq (silent failed) ?_
        rw [if_neg failed]
        exact .succeeds
    have emission := emission _ fun ok => (all_mapEvents CommandEvent.inner _ _).mpr
      (rsmEmitBinary_silent (host.output output) program (host.files output).content ok)
    split
    · exact .seq (dumpProgram_silent program) emission
    · exact emission

/-- The parser returns 0 or -1. -/
theorem rsmParserParse_ret (realloc : Nat → Bool) (lexer : RsmLexer) (program : RsmProgram) :
    ∃ ret program', (rsmParserParse realloc lexer program).val = some (ret, program') ∧
      (ret = 0 ∨ ret = -1) := by
  have loop : ∀ fuel parser program r, (parseLoop realloc fuel parser program).val = some r →
      r.1 = 0 ∨ r.1 = -1 := by
    intro fuel
    induction fuel with
    | zero => exact fun _ _ _ none => by cases none
    | succ fuel ih =>
      intro parser program r parsed
      rw [parseLoop] at parsed
      split at parsed
      · cases parsed
        exact .inl rfl
      · rw [val_bind] at parsed
        generalize (parseLine realloc parser program).val = line at parsed
        obtain ⟨ret, next, after⟩ := line
        dsimp only at parsed
        split at parsed
        · cases parsed
          exact .inr rfl
        · exact ih _ _ _ parsed
  obtain ⟨r, parsed⟩ := Option.isSome_iff_exists.mp (rsmParserParse_isSome realloc lexer program)
  exact ⟨r.1, r.2, parsed, loop _ _ _ _ parsed⟩

theorem rsmTranslate_honest (host : RsmHost) (output : String) (rsm : List Byte) :
    Honest (rsmTranslate host output rsm) := by
  have malloc : ∀ text, Honest (do
      Traced.emit (.perror "malloc")
      Traced.emit (.error text)
      return some (-1, host.files)) := by
    intro text
    refine ⟨-1, host.files, rfl, .inr ⟨rfl, fun all => ?_⟩⟩
    exact (all_emit _ _).mp ((all_bind _ _ _).mp all).1
  unfold rsmTranslate
  split
  · exact malloc _
  · split
    · exact malloc _
    · split
      · exact malloc _
      · obtain ⟨ret, program, parsed, rfl | rfl⟩ :=
          rsmParserParse_ret host.realloc (rsmLexerCreate rsm) rsmProgramCreate
        · refine .seq ((all_mapEvents _ _ _).mpr (rsmParserParse_silent _ _ _ ⟨program, parsed⟩)) ?_
          rw [val_mapEvents, parsed]
          exact rsmAssemble_honest host output program
        · refine @Honest.failed host.files _ _ _ ?_ fun all => ?_
          · rw [val_mapEvents, parsed]
            rfl
          · rw [val_mapEvents, parsed] at all
            exact (all_emit _ _).mp ((all_bind _ _ _).mp all).1

/-- **The return code of `rocketasm`.** Built with `NDEBUG`, and whatever its arguments, its files
and the outcomes of its library calls are, `rocketasm` returns: 0 if it has reported no error, in a
message of its own or in any function that it calls, and -1 if it has. -/
theorem rsm_main_reports (host : RsmHost) (argv : List String) :
    ∃ ret files, (rsmMain host argv).val = some (ret, files) ∧ (ret = 0 ∨ ret = -1) ∧
      (ret = 0 ↔ (rsmMain host argv).All (CommandEvent.Silent RsmEvent.Silent)) := by
  have honest : Honest (rsmMain host argv) := by
    unfold rsmMain
    split
    · exact .seq ((all_emit _ _).mpr trivial) .succeeds
    · split
      · exact .fails id
      · exact .fails id
      · split
        · exact .fails id
        · split
          · exact .fails id
          · exact rsmTranslate_honest _ _ _
  obtain ⟨ret, files, value, ⟨rfl, all⟩ | ⟨rfl, some_⟩⟩ := honest.returns
  · exact ⟨0, files, value, .inl rfl, iff_of_true rfl all⟩
  · exact ⟨-1, files, value, .inr rfl, iff_of_false (by decide) some_⟩

/-! ## Files -/

/-- The input file can be read and translated: the allocations succeed, it parses, and its labels
are defined. -/
structure Translates (host : RsmHost) (input : String) (program : RsmProgram) : Prop where
  access : host.access input = true
  lexerMalloc : host.lexerMalloc = true
  parserMalloc : host.parserMalloc = true
  programMalloc : host.programMalloc = true
  parses : ∃ rsm, rvmIoReadFile (host.files input) = some rsm ∧ Parses host.realloc rsm program
  resolves : (rsmResolveLabels program).val = 0

/-- What `rocketasm` leaves: the files as they were, or the output file written by the emitter, for
an input that translates. -/
inductive Leaves (host : RsmHost) (argv : List String) : Option (Int × Files) → Prop
  | usage (few : argv.length ≤ 1) : Leaves host argv (some (0, host.files))
  | refused (given : 2 ≤ argv.length)
      (none : ∀ input output program, Gives argv.tail (some input) output →
        ¬ Translates host input program) : Leaves host argv (some (-1, host.files))
  | emitted {input output program ret content} (given : 2 ≤ argv.length)
      (gives : Gives argv.tail (some input) output) (translates : Translates host input program)
      (emits : (rsmEmitBinary (host.output output) program (host.files output).content).val =
        (ret, content)) :
      Leaves host argv (some (ret, host.files.write output content))

theorem Gives.unique {args : List String} {input input' : Option String} {output output' : String}
    (gives : Gives args input output) (gives' : Gives args input' output') :
    input = input' ∧ output = output' :=
  Prod.mk.inj (Option.some.inj ((scanArgs_iff.mpr gives).symm.trans (scanArgs_iff.mpr gives')))

theorem Translates.unique {host : RsmHost} {input : String} {program program' : RsmProgram}
    (translates : Translates host input program) (translates' : Translates host input program') :
    program = program' := by
  obtain ⟨rsm, read, parses⟩ := translates.parses
  obtain ⟨rsm', read', parses'⟩ := translates'.parses
  obtain rfl : rsm = rsm' := Option.some.inj (read.symm.trans read')
  exact (Prod.mk.inj (Option.some.inj (parses.symm.trans parses'))).2

theorem resolveLabels_ret (program : RsmProgram) (instrs : List RsmInstr) :
    (resolveLabels program instrs).val = 0 ∨ (resolveLabels program instrs).val = -1 := by
  induction instrs with
  | nil => exact .inl rfl
  | cons instr instrs ih =>
    rw [resolveLabels]
    split
    · exact .inr rfl
    · split
      · exact .inr rfl
      · exact ih

theorem rsmAssemble_val (host : RsmHost) (output : String) {program : RsmProgram}
    (resolved : (rsmResolveLabels program).val = 0) :
    (rsmAssemble host output program).val =
      let emitted := (rsmEmitBinary (host.output output) program (host.files output).content).val
      some (if emitted.1 = -1 then -1 else 0, host.files.write output emitted.2) := by
  have other : ¬ (rsmResolveLabels program).val = -1 := by
    rw [resolved]
    decide
  rw [rsmAssemble, val_bind, val_mapEvents, if_neg other]
  have emission : ∀ x : Traced (CommandEvent RsmEvent) (Int × List Byte), (do
      let emitted ← x
      if emitted.1 = -1 then
        Traced.emit (.error "rsm_emit_binary failed")
        return some (-1, host.files.write output emitted.2)
      else
        return some (0, host.files.write output emitted.2) : RsmMain).val =
      some (if x.val.1 = -1 then -1 else 0, host.files.write output x.val.2) := by
    intro x
    rw [val_bind]
    split <;> rfl
  split
  · dsimp only
    rw [val_bind]
    exact emission _
  · exact emission _

theorem rsmEmitBinary_ret (io : RsmOutput) (program : RsmProgram) (old : List Byte) :
    (rsmEmitBinary io program old).val.1 = 0 ∨ (rsmEmitBinary io program old).val.1 = -1 := by
  cases opened : io.fopen with
  | false =>
    rw [rsmEmitBinary_refused opened]
    exact .inr rfl
  | true =>
    rw [rsmEmitBinary_opened opened]
    obtain ⟨_, ⟨ok, _⟩ | ⟨fails, _⟩⟩ := emitWords_val io program 0 program.instrs.items []
    · exact .inl ok
    · exact .inr fails

/-- What one input leaves. -/
theorem rsmTranslate_leaves {host : RsmHost} {argv : List String} {input output : String}
    {rsm : List Byte} (given : 2 ≤ argv.length) (gives : Gives argv.tail (some input) output)
    (access : host.access input = true) (read : rvmIoReadFile (host.files input) = some rsm) :
    Leaves host argv (rsmTranslate host output rsm).val := by
  -- the program that the input translates to is the one that is parsed
  have refused : (∀ program, ¬ Translates host input program) →
      Leaves host argv (some (-1, host.files)) := by
    intro none
    refine .refused given fun input' output' program gives' => ?_
    obtain ⟨same, _⟩ := gives.unique gives'
    cases same
    exact none program
  unfold rsmTranslate
  split
  · next lexer =>
    refine refused fun program translates => ?_
    rw [translates.lexerMalloc] at lexer
    cases lexer
  · next lexer =>
    split
    · next parser =>
      refine refused fun program translates => ?_
      rw [translates.parserMalloc] at parser
      cases parser
    · next parser =>
      split
      · next create =>
        refine refused fun program translates => ?_
        rw [translates.programMalloc] at create
        cases create
      · next create =>
        obtain ⟨ret, program, parsed, outcome⟩ :=
          rsmParserParse_ret host.realloc (rsmLexerCreate rsm) rsmProgramCreate
        have only : ∀ program', Translates host input program' → ret = 0 ∧ program' = program := by
          intro program' translates
          obtain ⟨rsm', read', parses⟩ := translates.parses
          obtain rfl : rsm = rsm' := Option.some.inj (read.symm.trans read')
          obtain ⟨same, same'⟩ := Prod.mk.inj (Option.some.inj (parsed.symm.trans parses))
          exact ⟨same, same'.symm⟩
        rw [val_bind, val_mapEvents, parsed]
        rcases outcome with rfl | rfl
        · show Leaves host argv (rsmAssemble host output program).val
          rcases resolveLabels_ret program program.instrs.items with resolved | undefined
          · have translates : Translates host input program :=
              ⟨access, by simpa using lexer, by simpa using parser, by simpa using create,
                ⟨rsm, read, parsed⟩, resolved⟩
            have leaves := @Leaves.emitted host argv _ output program (rsmEmitBinary
              (host.output output) program (host.files output).content).val.1 _ given gives
              translates rfl
            rw [rsmAssemble_val host output resolved]
            dsimp only
            rcases rsmEmitBinary_ret (host.output output) program (host.files output).content with
              ok | fails
            · rw [ok] at leaves
              rw [if_neg (by rw [ok]; decide)]
              exact leaves
            · rw [fails] at leaves
              rw [if_pos fails]
              exact leaves
          · have undefined : (rsmResolveLabels program).val = -1 := undefined
            have value : (rsmAssemble host output program).val = some (-1, host.files) := by
              rw [rsmAssemble, val_bind, val_mapEvents, if_pos undefined]
              rfl
            rw [value]
            refine refused fun program' translates => ?_
            obtain ⟨_, rfl⟩ := only program' translates
            rw [translates.resolves] at undefined
            cases undefined
        · refine refused fun program' translates => ?_
          cases (only program' translates).1

theorem rsmMain_leaves (host : RsmHost) (argv : List String) :
    Leaves host argv (rsmMain host argv).val := by
  unfold rsmMain
  split
  · next few => exact .usage few
  · next more =>
    have given : 2 ≤ argv.length := by omega
    split
    · next scanned =>
      refine .refused given fun input output program gives => ?_
      rw [scanArgs_iff.mpr gives] at scanned
      cases scanned
    · next scanned =>
      refine .refused given fun input output program gives => ?_
      rw [scanArgs_iff.mpr gives] at scanned
      cases scanned
    · next input output scanned =>
      have gives := scanArgs_iff.mp scanned
      have refused : (∀ program, ¬ Translates host input program) →
          Leaves host argv (some (-1, host.files)) := by
        intro none
        refine .refused given fun input' output' program gives' => ?_
        obtain ⟨same, _⟩ := gives.unique gives'
        cases same
        exact none program
      split
      · next denied =>
        refine refused fun program translates => ?_
        rw [translates.access] at denied
        cases denied
      · next readable =>
        split
        · next unread =>
          refine refused fun program translates => ?_
          obtain ⟨rsm, read, _⟩ := translates.parses
          rw [unread] at read
          cases read
        · next rsm read =>
          exact rsmTranslate_leaves given gives (by simpa using readable) read

/-- Where the arguments give an input that translates, the emitter decides. -/
theorem Leaves.unique {host : RsmHost} {argv : List String} {result : Option (Int × Files)}
    (leaves : Leaves host argv result) (given : 2 ≤ argv.length) {input output : String}
    {program : RsmProgram} {ret : Int} {content : List Byte}
    (gives : Gives argv.tail (some input) output) (translates : Translates host input program)
    (emits : (rsmEmitBinary (host.output output) program (host.files output).content).val =
      (ret, content)) : result = some (ret, host.files.write output content) := by
  cases leaves with
  | usage few => omega
  | refused _ none => exact absurd translates (none _ _ _ gives)
  | emitted _ gives' translates' emits' =>
    obtain ⟨same, rfl⟩ := gives.unique gives'
    cases same
    obtain rfl := translates.unique translates'
    rw [emits] at emits'
    cases emits'
    rfl

/-- How the emitter ends. -/
theorem rsmEmitBinary_ends {io : RsmOutput} {program : RsmProgram} {old content : List Byte} :
    ((rsmEmitBinary io program old).val = (0, content) ↔
      io.fopen = true ∧ AllEncoded program 0 program.instrs.items ∧
        content = writtenBytes io 0 (wordsFrom program 0 program.instrs.items)) ∧
    ((rsmEmitBinary io program old).val = (-1, content) ↔
      (io.fopen = false ∧ content = old) ∨
      (io.fopen = true ∧ ¬ AllEncoded program 0 program.instrs.items ∧
        content = writtenBytes io 0 (encodedPrefix program 0 program.instrs.items))) := by
  cases opened : io.fopen with
  | false =>
    rw [rsmEmitBinary_refused opened]
    simp [eq_comm]
  | true =>
    rw [rsmEmitBinary_opened opened]
    obtain ⟨bytes, result⟩ := emitWords_val io program 0 program.instrs.items []
    rw [List.nil_append] at bytes
    generalize (emitWords io program 0 program.instrs.items []).val = emitted at bytes result
    obtain ⟨ret, file⟩ := emitted
    dsimp only at bytes result
    subst bytes
    obtain ⟨rfl, all⟩ | ⟨rfl, some_⟩ := result
    · rw [encodedPrefix_of_all all]
      simp [all, eq_comm]
    · simp [some_, eq_comm]

theorem Files.write_self (files : Files) (path : String) :
    files.write path (files path).content = files := by
  funext p
  unfold Files.write
  split
  · next same => rw [same]
  · rfl

/-- **When `rocketasm` succeeds.** Built with `NDEBUG`, it returns 0 exactly when it has no
arguments, and then no file changes, or when the paths that it is given are an input that translates
to a program each of whose instructions has a word, and an output that can be opened; and then the
output file alone changes, and holds what was written of the words. -/
theorem rsm_main_succeeds_iff (host : RsmHost) (argv : List String) (files : Files) :
    (rsmMain host argv).val = some (0, files) ↔
      (argv.length ≤ 1 ∧ files = host.files) ∨
      ∃ input output program, 2 ≤ argv.length ∧ Gives argv.tail (some input) output ∧
        Translates host input program ∧ (host.output output).fopen = true ∧
        AllEncoded program 0 program.instrs.items ∧ files = host.files.write output
          (writtenBytes (host.output output) 0 (wordsFrom program 0 program.instrs.items)) := by
  have leaves := rsmMain_leaves host argv
  constructor
  · intro returns
    rw [returns] at leaves
    cases leaves with
    | usage few => exact .inl ⟨few, rfl⟩
    | emitted given gives translates emits =>
      obtain ⟨opened, all, rfl⟩ := rsmEmitBinary_ends.1.mp emits
      exact .inr ⟨_, _, _, given, gives, translates, opened, all, rfl⟩
  · rintro (⟨few, rfl⟩ | ⟨input, output, program, given, gives, translates, opened, all, rfl⟩)
    · rw [rsmMain, if_pos few]
      rfl
    · exact leaves.unique given gives translates (rsmEmitBinary_ends.1.mpr ⟨opened, all, rfl⟩)

/-- **When `rocketasm` fails.** Built with `NDEBUG`, it returns -1 exactly when it has arguments,
and no file changes because they give no input that translates or no output that can be opened, or
an instruction of the program has no word: then the output file holds, once the process has ended,
what was written of the words before it. -/
theorem rsm_main_fails_iff (host : RsmHost) (argv : List String) (files : Files) :
    (rsmMain host argv).val = some (-1, files) ↔ 2 ≤ argv.length ∧
      ((files = host.files ∧ ∀ input output program, Gives argv.tail (some input) output →
        Translates host input program → (host.output output).fopen = false) ∨
      ∃ input output program, Gives argv.tail (some input) output ∧
        Translates host input program ∧ (host.output output).fopen = true ∧
        ¬ AllEncoded program 0 program.instrs.items ∧ files = host.files.write output
          (writtenBytes (host.output output) 0
            (encodedPrefix program 0 program.instrs.items))) := by
  have leaves := rsmMain_leaves host argv
  constructor
  · intro returns
    rw [returns] at leaves
    cases leaves with
    | refused given none =>
      refine ⟨given, .inl ⟨rfl, fun input output program gives translates => ?_⟩⟩
      exact absurd translates (none input output program gives)
    | emitted given gives translates emits =>
      refine ⟨given, ?_⟩
      rcases rsmEmitBinary_ends.2.mp emits with ⟨closed, rfl⟩ | ⟨opened, some_, rfl⟩
      · refine .inl ⟨Files.write_self _ _, fun input output program gives' _ => ?_⟩
        obtain ⟨_, rfl⟩ := gives.unique gives'
        exact closed
      · exact .inr ⟨_, _, _, gives, translates, opened, some_, rfl⟩
  · rintro ⟨given, ⟨rfl, none⟩ | ⟨input, output, program, gives, translates, opened, some_, rfl⟩⟩
    · generalize (rsmMain host argv).val = result at leaves
      cases leaves with
      | usage few => omega
      | refused => rfl
      | @emitted input output program ret content _ gives translates emits =>
        have closed := none input output program gives translates
        rw [rsmEmitBinary_refused closed] at emits
        cases emits
        rw [Files.write_self]
    · exact leaves.unique given gives translates
        (rsmEmitBinary_ends.2.mpr (.inr ⟨opened, some_, rfl⟩))

/-! ## rocketrun -/

/-- The event of the machine is no report of an error. -/
def RvmEvent.Silent (e : RvmEvent) : Prop := e.isError = false

/-- An instruction of the image that the arguments name faults. -/
def Faulted (host : RvmHost) (argv : List String) : Prop :=
  ∃ path vm j, argv[1]? = some path ∧ Loads (host.files path) vm ∧ (vm.after j).faults

theorem rvmVmLoad_ret (vm : RvmVm) (file : RvmFile) :
    (rvmVmLoad vm file).1 = 0 ∨ (rvmVmLoad vm file).1 = -1 := by
  unfold rvmVmLoad
  split
  · exact .inr rfl
  · split
    · exact .inr rfl
    · exact .inl rfl

/-- What a run reports. -/
theorem rvmVmRun_silent {fuel : Nat} {vm vm' : RvmVm} {ret : Int}
    (ran : (rvmVmRun fuel vm).val = some (ret, vm')) :
    (ret = 0 ∨ ret = -1) ∧ ((rvmVmRun fuel vm).All RvmEvent.Silent ↔
      ret = 0 ∧ ∀ j, ¬ (vm.after j).faults) := by
  obtain ⟨k, long, ends, rfl, value⟩ := rvmVmRun_eq_some.mp ran
  have reports := rvmVmRun_isError ends long
  have all : (rvmVmRun fuel vm).All RvmEvent.Silent ↔
      ¬ ∃ e ∈ (rvmVmRun fuel vm).events, e.isError = true := by
    simp only [All, RvmEvent.Silent, not_exists, not_and, Bool.not_eq_true]
  rw [all, reports, not_or, not_exists, Bool.not_eq_false]
  constructor
  · rw [value]
    split
    · exact .inl rfl
    · exact .inr rfl
  · rw [and_comm]
    refine and_congr ?_ (forall_congr' fun j => not_congr ?_)
    · rw [value]
      split
      · next halted => exact iff_of_true halted rfl
      · next running => exact iff_of_false running (by decide)
    · refine and_iff_right_of_imp fun faults => ?_
      obtain ⟨last, _⟩ := ends.of_ending (.inl faults)
      omega

/-- **The return code of `rocketrun`.** If it returns, an error was reported exactly when the return
code is -1 or an instruction faulted. -/
theorem rvm_main_reports {host : RvmHost} {fuel : Nat} {argv : List String} {ret : Int}
    (returned : (rvmMain host fuel argv).val = some ret) :
    (ret = 0 ∨ ret = -1) ∧ ((rvmMain host fuel argv).All (CommandEvent.Silent RvmEvent.Silent) ↔
      ret = 0 ∧ ¬ Faulted host argv) := by
  have fails : ∀ {x : Traced (CommandEvent RvmEvent) (Option Int)}, x.val = some ret →
      x.val = some (-1) → ¬ x.All (CommandEvent.Silent RvmEvent.Silent) →
      (ret = 0 ∨ ret = -1) ∧ (x.All (CommandEvent.Silent RvmEvent.Silent) ↔
        ret = 0 ∧ ¬ Faulted host argv) := by
    intro x value minus report
    cases value.symm.trans minus
    exact ⟨.inr rfl, iff_of_false report fun zero => absurd zero.1 (by decide)⟩
  have usage : argv.length ≤ 1 → ∀ text, (do
      Traced.emit (.stdout text)
      return some 0 : Traced (CommandEvent RvmEvent) (Option Int)).val = some ret →
      (ret = 0 ∨ ret = -1) ∧ ((do
        Traced.emit (.stdout text)
        return some 0 : Traced (CommandEvent RvmEvent) (Option Int)).All
          (CommandEvent.Silent RvmEvent.Silent) ↔ ret = 0 ∧ ¬ Faulted host argv) := by
    intro few text value
    cases value
    refine ⟨.inl rfl, iff_of_true ?_ ⟨rfl, ?_⟩⟩
    · exact (all_bind _ _ _).mpr ⟨(all_emit _ _).mpr trivial, all_pure _ _⟩
    · rintro ⟨path, vm, j, given, _⟩
      obtain ⟨inside, _⟩ := List.getElem?_eq_some_iff.mp given
      omega
  match argv with
  | [] => exact usage (by simp) _ returned
  | [_] => exact usage (by simp) _ returned
  | name :: path :: rest =>
    rw [rvmMain] at returned ⊢
    have report : ∀ e : CommandEvent RvmEvent, ¬ e.Silent RvmEvent.Silent →
        ¬ (do Traced.emit e; return some (-1) : Traced (CommandEvent RvmEvent) (Option Int)).All
          (CommandEvent.Silent RvmEvent.Silent) := fun e loud all =>
      loud ((all_emit _ _).mp ((all_bind _ _ _).mp all).1)
    split at returned
    · next denied =>
      rw [if_pos denied]
      exact fails returned rfl (report _ id)
    · next readable =>
      rw [if_neg readable]
      cases malloc : host.malloc with
      | false =>
        rw [malloc] at returned
        exact fails returned rfl fun all => ((all_emit _ _).mp ((all_bind _ _ _).mp all).1)
      | true =>
        rw [malloc] at returned
        simp only [rvmVmCreate, ↓reduceIte] at returned ⊢
        generalize loaded : rvmVmLoad freshVm (host.files path) = result at returned ⊢
        obtain ⟨code, vm⟩ := result
        dsimp only at returned ⊢
        have codes := rvmVmLoad_ret freshVm (host.files path)
        rw [loaded] at codes
        rcases codes with rfl | rfl
        · have faulted : Faulted host (name :: path :: rest) ↔ ∃ j, (vm.after j).faults := by
            constructor
            · rintro ⟨_, vm', j, ⟨⟩, loads, faults⟩
              obtain ⟨_, rfl⟩ := Prod.mk.inj (loaded.symm.trans loads)
              exact ⟨j, faults⟩
            · exact fun ⟨j, faults⟩ => ⟨path, vm, j, rfl, loaded, faults⟩
          rw [faulted, not_exists]
          rw [if_neg (by decide), val_bind, val_mapEvents] at returned
          rw [if_neg (by decide), all_bind, all_mapEvents, val_mapEvents]
          cases ran : (rvmVmRun fuel vm).val with
          | none =>
            rw [ran] at returned
            cases returned
          | some r =>
            obtain ⟨code, vm'⟩ := r
            obtain ⟨rfl | rfl, silent⟩ := rvmVmRun_silent ran
            · rw [ran] at returned
              cases returned
              refine ⟨.inl rfl, ?_⟩
              exact (and_iff_left (all_pure _ _)).trans silent
            · rw [ran] at returned
              cases returned
              refine ⟨.inr rfl, iff_of_false (fun all => ?_) fun zero => absurd zero.1 (by decide)⟩
              exact report (.error "rvm_vm_run failed") id all.2
        · exact fails returned rfl (report _ id)

/-- A host on which every file holds MOV rv0, 7 and a division by zero. -/
def divisionHost : RvmHost where
  files _ := { content := divisionByZero }
  access _ := true
  malloc := true

theorem rvm_main_reports_division : ((0 : Int) = 0 ∨ (0 : Int) = -1) ∧
    ((rvmMain divisionHost 3 ["rocketrun", "out.rvm"]).All
        (CommandEvent.Silent RvmEvent.Silent) ↔
      (0 : Int) = 0 ∧ ¬ Faulted divisionHost ["rocketrun", "out.rvm"]) :=
  rvm_main_reports (by decide +kernel)

end RocketVm
