import RocketVm.Asm.Encoder

/-!
# The emitter

`rocketasm/emitter.c`: the words of a program, written to a file.
-/

namespace RocketVm

open Lib

/-- How the library calls on the output file turn out: whether `fopen` succeeds, and how many of
its bytes the `fwrite` for each instruction writes to the stream. -/
structure RsmOutput where
  fopen : Bool
  fwrite : Nat → Nat

/-- An output file on which every call succeeds. -/
def RsmOutput.working : RsmOutput := ⟨true, fun _ => 2⟩

/-- The two bytes of a word, low byte first. -/
def wordBytes (word : Word) : List Byte :=
  [(word &&& 0xFF).setWidth 8, ((word >>> 8) &&& 0xFF).setWidth 8]

/-- The loop of `rsm_emit_binary`, at an index, with the bytes that were written by then. The path
that its last report names is not an argument here, and the record of each word at the level DEBUG
is left out. -/
def emitWords (io : RsmOutput) (program : RsmProgram) :
    Nat → List RsmInstr → List Byte → Traced RsmEvent (Int × List Byte)
  | _, [], file => do
    Traced.emit (.info "rsm_emit_binary written to %s")
    return (0, file)
  | i, instr :: instrs, file => do
    let encoded ← rsmEncodeInstr program instr i
    if encoded = -1 then
      Traced.emit (.error "rsm_encoder_encode_instr failed")
      return (-1, file)
    else
      emitWords io program (i + 1) instrs
        (file ++ (wordBytes (BitVec.ofInt 16 encoded)).take (io.fwrite i))

/-- The return code, and the content of the file at the output path, which was `old`, once the
stream is closed: by `fclose` where the code is 0, and at the end of the process otherwise. -/
def rsmEmitBinary (io : RsmOutput) (program : RsmProgram) (old : List Byte) :
    Traced RsmEvent (Int × List Byte) := do
  if !io.fopen then
    Traced.emit (.error "fopen")
    return (-1, old)
  else
    emitWords io program 0 program.instrs.items []

/-- The content of the file when `rsm_emit_binary` returns. A stream that was not closed may have
passed on no more than some first bytes, `passed` of them, of what was written to it. -/
def fileOnReturn (io : RsmOutput) (program : RsmProgram) (old : List Byte) (passed : Nat) :
    List Byte :=
  let result := (rsmEmitBinary io program old).val
  if io.fopen = true ∧ result.1 = -1 then result.2.take passed else result.2

end RocketVm
