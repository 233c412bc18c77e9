import RocketVm.Lib.Traced

/-!
# The instruction set

The enumerations and the instruction record of `rocketvm/common/isa`, with the encoder and
decoder of its `encoder.h` and the names of its `utility.c`. A `uint16_t` is a `Word` and a
`uint8_t` a `Byte`; an opcode or mode taken out of a word is kept as the number the C enumeration
holds until a `switch` or a table looks at it.
-/

namespace RocketVm

open Lib

/-- `uint8_t`. -/
abbrev Byte := BitVec 8

/-- `uint16_t`. -/
abbrev Word := BitVec 16

/-! ## Enumerations -/

/-- `rvm_opcode_t`. -/
inductive RvmOpcode
  | mov | load | store
  | add | sub | mul | div | mod | shl | shr
  | cmp | jmp | jz | jnz
  | call | ret
deriving DecidableEq, Repr

/-- The value of each `rvm_opcode_t` enumerator. -/
def RvmOpcode.code : RvmOpcode → Nat
  | .mov => 0x0
  | .load => 0x1
  | .store => 0x2
  | .add => 0x3
  | .sub => 0x4
  | .mul => 0x5
  | .div => 0x6
  | .mod => 0x7
  | .shl => 0x8
  | .shr => 0x9
  | .cmp => 0xA
  | .jmp => 0xB
  | .jz => 0xC
  | .jnz => 0xD
  | .call => 0xE
  | .ret => 0xF

/-- The enumerator with a given value, if there is one. -/
def RvmOpcode.ofCode? : Nat → Option RvmOpcode
  | 0x0 => some .mov
  | 0x1 => some .load
  | 0x2 => some .store
  | 0x3 => some .add
  | 0x4 => some .sub
  | 0x5 => some .mul
  | 0x6 => some .div
  | 0x7 => some .mod
  | 0x8 => some .shl
  | 0x9 => some .shr
  | 0xA => some .cmp
  | 0xB => some .jmp
  | 0xC => some .jz
  | 0xD => some .jnz
  | 0xE => some .call
  | 0xF => some .ret
  | _ => none

/-- `rvm_reg_t`: the eight general purpose registers. -/
abbrev RvmReg := Fin 8

/-- Named, so that a number means the same register in every module. -/
instance RvmReg.neZero : @NeZero Nat Zero.ofOfNat0 8 := ⟨Nat.succ_ne_zero 7⟩

/-- `rvm_instr_mode_t`. -/
inductive RvmMode
  | immOrAddr | reg
deriving DecidableEq, Repr

/-- The value of each `rvm_instr_mode_t` enumerator. -/
def RvmMode.code : RvmMode → Nat
  | .immOrAddr => 0x0
  | .reg => 0x1

/-- The mode in the lowest bit of a word. -/
def RvmMode.ofBit (w : Word) : RvmMode := if w &&& 0x1 = 0 then .immOrAddr else .reg

/-- The register in the three lowest bits of a word. -/
def RvmReg.ofBits (w : Word) : RvmReg := Fin.ofNat 8 (w &&& 0x7).toNat

/-- `rvm_instr_t`. The opcode is the number the C enumeration holds. -/
structure RvmInstr where
  raw : Word
  opcode : Nat
  reg : RvmReg
  mode : RvmMode
  operand : Byte
deriving DecidableEq, Repr

/-! ## Encoding and decoding -/

def rvmEncode (opcode : RvmOpcode) (reg : RvmReg) (mode : RvmMode) (operand : Byte) : Word :=
  (BitVec.ofNat 16 (opcode.code &&& 0xF) <<< 12) ||| (BitVec.ofNat 16 (reg.val &&& 0x7) <<< 9) |||
    (BitVec.ofNat 16 (mode.code &&& 0x1) <<< 8) ||| (operand &&& 0xFF).setWidth 16

def rvmDecode (instr : Word) : RvmInstr where
  raw := instr
  opcode := ((instr >>> 12) &&& 0xF).toNat
  reg := RvmReg.ofBits (instr >>> 9)
  mode := RvmMode.ofBit (instr >>> 8)
  operand := (instr &&& 0xFF).setWidth 8

/-! ## Format A and B builders -/

def rvmMovImm (rvd : RvmReg) (imm : Byte) : Word := rvmEncode .mov rvd .immOrAddr imm

/-- A register passed where `rvm_encode` takes its `uint8_t` operand. -/
def RvmReg.toByte (r : RvmReg) : Byte := BitVec.ofNat 8 r.val

def rvmMovReg (rvd rvs : RvmReg) : Word := rvmEncode .mov rvd .reg (RvmReg.toByte rvs)

def rvmLoadAddr (rvd : RvmReg) (addr : Byte) : Word := rvmEncode .load rvd .immOrAddr addr

def rvmLoadReg (rvd rvs : RvmReg) : Word := rvmEncode .load rvd .reg (RvmReg.toByte rvs)

def rvmStoreAddr (rvs : RvmReg) (addr : Byte) : Word := rvmEncode .store rvs .immOrAddr addr

def rvmStoreReg (rvs raddr : RvmReg) : Word := rvmEncode .store rvs .reg (RvmReg.toByte raddr)

def rvmAddImm (rvd : RvmReg) (imm : Byte) : Word := rvmEncode .add rvd .immOrAddr imm

def rvmAddReg (rvd rvs : RvmReg) : Word := rvmEncode .add rvd .reg (RvmReg.toByte rvs)

def rvmSubImm (rvd : RvmReg) (imm : Byte) : Word := rvmEncode .sub rvd .immOrAddr imm

def rvmSubReg (rvd rvs : RvmReg) : Word := rvmEncode .sub rvd .reg (RvmReg.toByte rvs)

def rvmMulImm (rvd : RvmReg) (imm : Byte) : Word := rvmEncode .mul rvd .immOrAddr imm

def rvmMulReg (rvd rvs : RvmReg) : Word := rvmEncode .mul rvd .reg (RvmReg.toByte rvs)

def rvmDivImm (rvd : RvmReg) (imm : Byte) : Word := rvmEncode .div rvd .immOrAddr imm

def rvmDivReg (rvd rvs : RvmReg) : Word := rvmEncode .div rvd .reg (RvmReg.toByte rvs)

def rvmModImm (rvd : RvmReg) (imm : Byte) : Word := rvmEncode .mod rvd .immOrAddr imm

def rvmModReg (rvd rvs : RvmReg) : Word := rvmEncode .mod rvd .reg (RvmReg.toByte rvs)

def rvmShlImm (rvd : RvmReg) (imm : Byte) : Word := rvmEncode .shl rvd .immOrAddr imm

def rvmShlReg (rvd rvs : RvmReg) : Word := rvmEncode .shl rvd .reg (RvmReg.toByte rvs)

def rvmShrImm (rvd : RvmReg) (imm : Byte) : Word := rvmEncode .shr rvd .immOrAddr imm

def rvmShrReg (rvd rvs : RvmReg) : Word := rvmEncode .shr rvd .reg (RvmReg.toByte rvs)

def rvmCmpImm (rvd : RvmReg) (imm : Byte) : Word := rvmEncode .cmp rvd .immOrAddr imm

def rvmCmpReg (rvd rvs : RvmReg) : Word := rvmEncode .cmp rvd .reg (RvmReg.toByte rvs)

/-! ## Format C builders

The builders that take a relative offset assert its range. Release builds compile the assertion
out, so it is an event of the trace here and never stops the builder: a Debug build is one that
aborts at the first assertion of the trace that does not hold. -/

/-- An argument of a report's format. -/
inductive RsmArg
  | int (v : Int)
  | size (n : Nat)
  /-- A pointer into the source text, as the bytes of the name it points to. -/
  | chars (bytes : List Byte)
  | string (text : String)
deriving DecidableEq, Repr

/-- What the assembler's functions do and report besides their results. A report is its format with
the arguments that are passed for it. -/
inductive RsmEvent
  | assertion (holds : Bool) (text : String)
  /-- The argument of a call of `isspace`, `isalpha`, `isalnum` or `isdigit`. -/
  | ctype (arg : Int)
  /-- A value that C computes in `int`. -/
  | int (value : Int)
  /-- A store into a growing table: its index, and the slots the block behind the table has. -/
  | store (index allocated : Nat)
  /-- A call of `rsm_lexer_tokenize`. -/
  | tokenize
  | info (format : String) (args : List RsmArg := [])
  | error (format : String) (args : List RsmArg := [])
deriving DecidableEq, Repr

/-- The relative form of a control-flow instruction. -/
def ctrlImm (opcode : RvmOpcode) (text : String) (simm : BitVec 16) : Traced RsmEvent Word := do
  Traced.emit (.assertion (decide (-1024 ≤ simm.toInt ∧ simm.toInt ≤ 1023)) text)
  return (BitVec.ofNat 16 (opcode.code &&& 0xF) <<< 12) |||
    (BitVec.ofNat 16 RvmMode.immOrAddr.code <<< 11) ||| (simm &&& 0x7FF)

/-- The register form of a control-flow instruction. -/
def ctrlReg (opcode : RvmOpcode) (rvd : RvmReg) : Word :=
  (BitVec.ofNat 16 (opcode.code &&& 0xF) <<< 12) |||
    (BitVec.ofNat 16 RvmMode.reg.code <<< 11) ||| BitVec.ofNat 16 (rvd.val &&& 0x7)

def rvmJmpImm := ctrlImm .jmp "rvm_jmp_imm simm out of bounds"

def rvmJmpReg := ctrlReg .jmp

def rvmJzImm := ctrlImm .jz "rvm_jz_imm simm out of bounds"

def rvmJzReg := ctrlReg .jz

def rvmJnzImm := ctrlImm .jnz "rvm_jnz_imm simm out of bounds"

def rvmJnzReg := ctrlReg .jnz

def rvmCallImm := ctrlImm .call "rvm_call_imm simm out of bounds"

def rvmCallReg := ctrlReg .call

def rvmRet : Word := BitVec.ofNat 16 (RvmOpcode.ret.code &&& 0xF) <<< 12

/-! ## Names -/

/-- The name of an opcode, given as the number the C enumeration holds. -/
def rvmOpcodeToString (opcode : Nat) : String :=
  match RvmOpcode.ofCode? opcode with
  | some .mov => "MOV"
  | some .load => "LOAD"
  | some .store => "STORE"
  | some .add => "ADD"
  | some .sub => "SUB"
  | some .mul => "MUL"
  | some .div => "DIV"
  | some .mod => "MOD"
  | some .shl => "SHL"
  | some .shr => "SHR"
  | some .cmp => "CMP"
  | some .jmp => "JMP"
  | some .jz => "JZ"
  | some .jnz => "JNZ"
  | some .call => "CALL"
  | some .ret => "RET"
  | none => "INVALID_OPCODE"

/-- The name of a register, given as the number the C enumeration holds. -/
def rvmRegToString (reg : Nat) : String :=
  match reg with
  | 0 => "RV0"
  | 1 => "RV1"
  | 2 => "RV2"
  | 3 => "RV3"
  | 4 => "RV4"
  | 5 => "RV5"
  | 6 => "RV6"
  | 7 => "RV7"
  | _ => "INVALID_REG"

end RocketVm
