import RocketVm.Asm.Dump
import RocketVm.Asm.Emitter
import RocketVm.Asm.Parser
import RocketVm.Vm

/-!
# The commands

`main` of `rocketasm/main.c` and of `rocketrun/main.c`. An argument and a path are strings. A host
says how the library calls turn out; the files that a command leaves are part of its result, as they
are once the process has ended. The builds are those with `NDEBUG`: an assertion is an event of the
trace and ends nothing. A build that keeps its assertions aborts at the first one that fails.
-/

namespace RocketVm

open Lib

/-- What a command does besides its result: `printf` and `fprintf` with a fixed text, a listing
that is printed, `perror`, `rvm_error`, and what the functions do that it calls. -/
inductive CommandEvent (ε : Type)
  | stdout (text : String)
  | stderr (text : String)
  | listing (text : List Byte)
  | perror (text : String)
  | error (text : String)
  | inner (event : ε)

/-- The files of a host, by their paths. -/
abbrev Files := String → RvmFile

/-- The files after a file was written. -/
def Files.write (files : Files) (path : String) (content : List Byte) : Files := fun p =>
  if p = path then { files p with content := content } else files p

/-! ## rocketasm -/

/-- How the library calls of `rocketasm` turn out. The three flags are those of the allocations in
`rsm_lexer_create`, `rsm_parser_create` and `rsm_program_create`; `debug` says whether `DEBUG` was
defined, which decides about the dumps and not about the assertions. -/
structure RsmHost where
  files : Files
  access : String → Bool
  lexerMalloc : Bool
  parserMalloc : Bool
  programMalloc : Bool
  realloc : Nat → Bool
  output : String → RsmOutput
  debug : Bool

/-- What `rocketasm` leaves: its return code and the files. Nothing where it does not return. -/
abbrev RsmMain := Traced (CommandEvent RsmEvent) (Option (Int × Files))

/-- The argument loop: the input path, if there is one, and the output path; nothing where `-o` is
the last argument. -/
def scanArgs (input : Option String) (output : String) :
    List String → Option (Option String × String)
  | [] => some (input, output)
  | [arg] => if arg = "-o" then none else some (some arg, output)
  | arg :: path :: args =>
    if arg = "-o" then scanArgs input path args
    else scanArgs (some arg) output (path :: args)

/-- The dumps of a program, with empty lines around them. -/
def dumpProgram (program : RsmProgram) : Traced (CommandEvent RsmEvent) Unit := do
  Traced.emit (.stdout "\n")
  Traced.emit (.listing (rsmProgramDumpInstrs program))
  Traced.emit (.stdout "\n")
  Traced.emit (.listing (rsmProgramDumpLabels program))
  Traced.emit (.stdout "\n")

/-- From the parsed program on. -/
def rsmAssemble (host : RsmHost) (output : String) (program : RsmProgram) : RsmMain := do
  let resolved ← (rsmResolveLabels program).mapEvents .inner
  if resolved = -1 then
    Traced.emit (.error "rsm_resolver_resolve_labels failed")
    return some (-1, host.files)
  else
    if host.debug then dumpProgram program
    let (emitted, content) ←
      (rsmEmitBinary (host.output output) program (host.files output).content).mapEvents .inner
    if emitted = -1 then
      Traced.emit (.error "rsm_emit_binary failed")
      return some (-1, host.files.write output content)
    else
      return some (0, host.files.write output content)

/-- From the source text on. -/
def rsmTranslate (host : RsmHost) (output : String) (rsm : List Byte) : RsmMain := do
  if !host.lexerMalloc then
    Traced.emit (.perror "malloc")
    Traced.emit (.error "rsm_lexer_create failed")
    return some (-1, host.files)
  else if !host.parserMalloc then
    Traced.emit (.perror "malloc")
    Traced.emit (.error "rsm_parser_create failed")
    return some (-1, host.files)
  else if !host.programMalloc then
    Traced.emit (.perror "malloc")
    Traced.emit (.error "rsm_program_create failed")
    return some (-1, host.files)
  else
    let parsed ←
      (rsmParserParse host.realloc (rsmLexerCreate rsm) rsmProgramCreate).mapEvents .inner
    match parsed with
    | none => return none
    | some (ret, program) =>
      if ret = -1 then
        Traced.emit (.error "rsm_parser_parse failed")
        return some (-1, host.files)
      else
        rsmAssemble host output program

/-- `main` of `rocketasm`, built with `NDEBUG`. -/
def rsmMain (host : RsmHost) (argv : List String) : RsmMain := do
  if argv.length ≤ 1 then
    Traced.emit (.stdout ("Usage: " ++ argv.headD "" ++ " <input.rsm> [-o output.rvm]\n"))
    return some (0, host.files)
  else
    match scanArgs none "out.rvm" argv.tail with
    | none =>
      Traced.emit (.stderr "-o requires out file path\n")
      return some (-1, host.files)
    | some (none, _) =>
      Traced.emit (.stderr "No input file provided\n")
      return some (-1, host.files)
    | some (some input, output) =>
      if !host.access input then
        Traced.emit (.perror input)
        return some (-1, host.files)
      else
        match rvmIoReadFile (host.files input) with
        | none =>
          Traced.emit (.error ("rvm_io_read_file(" ++ input ++ ") failed"))
          return some (-1, host.files)
        | some rsm => rsmTranslate host output rsm

/-! ## rocketrun -/

/-- How the library calls of `rocketrun` turn out. -/
structure RvmHost where
  files : Files
  access : String → Bool
  malloc : Bool

/-- `main` of `rocketrun`, the loop of `rvm_vm_run` cut off after a number of iterations: nothing
where the machine is still running. -/
def rvmMain (host : RvmHost) (fuel : Nat) (argv : List String) :
    Traced (CommandEvent RvmEvent) (Option Int) := do
  match argv with
  | [] | [_] =>
    Traced.emit (.stdout ("Usage: " ++ argv.headD "" ++ " <bin.rvm>\n"))
    return some 0
  | _ :: path :: _ =>
    if !host.access path then
      Traced.emit (.perror path)
      return some (-1)
    else
      match rvmVmCreate host.malloc with
      | none =>
        Traced.emit (.perror "malloc")
        Traced.emit (.error "rvm_vm_create failed")
        return some (-1)
      | some vm =>
        let (loaded, vm) := rvmVmLoad vm (host.files path)
        if loaded = -1 then
          Traced.emit (.error "rvm_vm_create failed")
          return some (-1)
        else
          let ran ← (rvmVmRun fuel vm).mapEvents .inner
          match ran with
          | none => return none
          | some (ret, _) =>
            if ret = -1 then
              Traced.emit (.error "rvm_vm_run failed")
              return some (-1)
            else
              return some 0

end RocketVm
