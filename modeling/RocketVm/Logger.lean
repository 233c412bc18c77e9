import RocketVm.Text
import RocketVm.Lib.LittleEndian
import RocketVm.Lib.Traced

/-!
# The logger

`rocketvm/common/utility/logger.c`: `rvm_log` puts the prefix and the message of a record together
in a buffer of its own, and writes them to the standard error in one call.
-/

namespace RocketVm

open Lib

/-- `enum rvm_logger_level`. -/
inductive RvmLoggerLevel
  | info | debug | warn | error | fatal | trace
deriving DecidableEq, Repr

/-- `rvm_logger_level_strings`. -/
def RvmLoggerLevel.string : RvmLoggerLevel → String
  | .info => "INFO"
  | .debug => "DEBUG"
  | .warn => "WARN"
  | .error => "ERROR"
  | .fatal => "FATAL"
  | .trace => "TRACE"

/-- `sizeof(buf)`. -/
def RVM_LOG_SIZE : Nat := 1024

/-- What a call of `rvm_log` does: a byte stored in the buffer, the write, and `abort`. -/
inductive LogEvent
  | store (i : Nat)
  | write (bytes : List Byte)
  | abort
deriving DecidableEq, Repr

/-! ## Formatting -/

/-- What the conversions of a format make of the arguments, and whether one of them fails. -/
structure Printed where
  text : List Byte
  failed : Bool
deriving DecidableEq, Repr

/-- The result of the `printf` family: the length of the text, or -1 if a conversion fails or the
length is no `int`. -/
def Printed.ret (printed : Printed) : Int :=
  if printed.failed ∨ 2147483647 < printed.text.length then -1 else printed.text.length

/-- Bytes into the buffer, from an index on. -/
def storeBytes (buf : ByteStore RVM_LOG_SIZE) (i : Nat) :
    List Byte → Traced LogEvent (ByteStore RVM_LOG_SIZE)
  | [] => return buf
  | b :: bs => do
    Traced.emit (.store i)
    storeBytes (buf.set i b) (i + 1) bs

/-- `snprintf(buf + offset, sizeof(buf) - offset, …)`: as much of the text as leaves room for the
zero that ends it. -/
def snprintf (buf : ByteStore RVM_LOG_SIZE) (offset : Nat) (printed : Printed) :
    Traced LogEvent (Int × ByteStore RVM_LOG_SIZE) := do
  let buf ← storeBytes buf offset (printed.text.take (RVM_LOG_SIZE - offset - 1) ++ [0])
  return (printed.ret, buf)

/-- `%-5s`. -/
def printS5 (s : String) : List Byte :=
  bytesOf s ++ List.replicate (5 - (bytesOf s).length) (chr ' ')

/-- What stands in front of the message; a release build leaves the place out. -/
def logPrefix (debug : Bool) (timebuf : List Byte) (level : RvmLoggerLevel) (file : List Byte)
    (line : BitVec 32) : List Byte :=
  if debug then
    timebuf ++ [chr ' '] ++ printS5 level.string ++ [chr ' '] ++ file ++ [chr ':'] ++ printD line ++
      bytesOf "  "
  else timebuf ++ [chr ' '] ++ printS5 level.string ++ [chr ' ']

/-! ## `rvm_log` -/

/-- The offset behind what `snprintf` stored, from its result. -/
def advance (offset : Nat) (n : Int) : Nat :=
  if n > 0 then
    if n.toNat ≥ RVM_LOG_SIZE - offset then RVM_LOG_SIZE - 1 else offset + n.toNat
  else offset

/-- The newline that ends a record, if there is room for it. -/
def storeNewline (buf : ByteStore RVM_LOG_SIZE) (offset : Nat) :
    Traced LogEvent (Nat × ByteStore RVM_LOG_SIZE) := do
  if offset < RVM_LOG_SIZE - 1 then
    Traced.emit (.store offset)
    return (offset + 1, buf.set offset (chr '\n'))
  else
    return (offset, buf)

/-- The arguments of a call, with what its format makes of them and the time at which it is made. -/
structure LogCall where
  timebuf : List Byte
  level : RvmLoggerLevel
  file : List Byte
  line : BitVec 32
  message : Printed
deriving DecidableEq, Repr

/-- A release build drops the records of two levels. -/
def LogCall.shown (debug : Bool) (call : LogCall) : Bool :=
  debug || !(call.level == .debug || call.level == .trace)

/-- `rvm_log`. The buffer is what the stack holds there. -/
def rvmLog (debug : Bool) (buf : ByteStore RVM_LOG_SIZE) (call : LogCall) :
    Traced LogEvent Unit := do
  if !call.shown debug then
    return
  let offset := 0
  let head := logPrefix debug call.timebuf call.level call.file call.line
  let (n, buf) ← snprintf buf offset ⟨head, false⟩
  let offset := advance offset n
  let (n, buf) ← snprintf buf offset call.message
  let offset := advance offset n
  let (offset, buf) ← storeNewline buf offset
  Traced.emit (.write ((List.range offset).map buf.get))
  if call.level = .fatal then
    Traced.emit .abort

/-- The calls of `rvm_log` that a process makes, each with what the stack holds in the place of its
buffer. `abort` is the end of the process. -/
def rvmLogs (debug : Bool) : List (ByteStore RVM_LOG_SIZE × LogCall) → Traced LogEvent Unit
  | [] => return
  | (buf, call) :: calls => do
    rvmLog debug buf call
    if call.level ≠ .fatal then
      rvmLogs debug calls

end RocketVm
