import RocketVm.Text

/-!
# The lexer

`rocketasm/lexer.c`. A source text is its bytes; the NUL that follows them in the C buffer is
read by `strtol` alone, which stops at it as it stops at the end of the list. `char` is signed:
the functions of `ctype.h` get the byte itself only where the source converts it to
`unsigned char`, and answer no for an argument outside ASCII.

The scanning loops recurse on what is left of the text.
-/

namespace RocketVm

open Lib

/-- `int32_t`. -/
abbrev SInt32 := BitVec 32

/-! ## Character classes -/

def isSpaceChar (c : Int) : Bool := c == 0x20 || (decide (0x09 ≤ c) && decide (c ≤ 0x0D))

def isDigitChar (c : Int) : Bool := decide (0x30 ≤ c) && decide (c ≤ 0x39)

def isAlphaChar (c : Int) : Bool :=
  (decide (0x41 ≤ c) && decide (c ≤ 0x5A)) || (decide (0x61 ≤ c) && decide (c ≤ 0x7A))

def isAlnumChar (c : Int) : Bool := isAlphaChar c || isDigitChar c

/-- A call of a `ctype.h` function. -/
def ctypeCall (accepts : Int → Bool) (arg : Int) : Traced RsmEvent Bool := do
  Traced.emit (.ctype arg)
  return accepts arg

def isspace := ctypeCall isSpaceChar

def isdigit := ctypeCall isDigitChar

def isalpha := ctypeCall isAlphaChar

def isalnum := ctypeCall isAlnumChar

/-- The characters an identifier is scanned over. -/
def isIdentChar (ch : Byte) : Bool := isAlnumChar ch.toInt || ch == chr '_'

/-- An identifier slice of the source: the pointer and length of the C code, as the bytes they
delimit. -/
structure RsmIdent where
  bytes : List Byte
  chars : bytes.all isIdentChar = true
deriving DecidableEq, Repr

def RsmIdent.empty : RsmIdent := ⟨[], rfl⟩

def RsmIdent.cons (ch : Byte) (h : isIdentChar ch = true) (name : RsmIdent) : RsmIdent :=
  ⟨ch :: name.bytes, by rw [List.all_cons, h, name.chars, Bool.and_self]⟩

/-- The arguments that reports pass for `%*.s`: the length of a name and a pointer to it. With a
precision of 0 the format prints as many blanks as that, and nothing of the name. -/
def RsmIdent.args (name : RsmIdent) : List RsmArg :=
  [.size name.bytes.length, .chars name.bytes]

/-! ## Tokens -/

/-- `rsm_token_type_t`, each type with the member of the union it uses. -/
inductive RsmTokenType
  | invalid
  | opcode (opcode : RvmOpcode)
  | reg (reg : RvmReg)
  | ident (name : RsmIdent)
  | number (number : SInt32)
  | comma | colon | lbracket | rbracket | newline | eof
deriving DecidableEq, Repr

/-- The value of each `rsm_token_type_t` enumerator. -/
def RsmTokenType.code : RsmTokenType → Nat
  | .invalid => 0
  | .opcode _ => 1
  | .reg _ => 2
  | .ident _ => 3
  | .number _ => 4
  | .comma => 5
  | .colon => 6
  | .lbracket => 7
  | .rbracket => 8
  | .newline => 9
  | .eof => 10

/-- `rsm_token_t`. -/
structure RsmToken where
  type : RsmTokenType
  size : Nat
deriving DecidableEq, Repr

/-- `rsm_token_type_to_string`. -/
def rsmTokenTypeToString : RsmTokenType → String
  | .invalid => "INVALID_TOKEN"
  | .opcode _ => "OPCODE"
  | .reg _ => "REG"
  | .ident _ => "IDENT"
  | .number _ => "NUMBER"
  | .comma => "COMMA"
  | .colon => "COLON"
  | .lbracket => "LBRACKET"
  | .rbracket => "RBRACKET"
  | .newline => "NEWLINE"
  | .eof => "EOF"

/-- `rsm_lexer_t`; its size is the length of the text. -/
structure RsmLexer where
  src : List Byte
  pos : Nat

def rsmLexerCreate (src : List Byte) : RsmLexer := ⟨src, 0⟩

/-- The text from the current position on. -/
def RsmLexer.rest (lexer : RsmLexer) : List Byte := lexer.src.drop lexer.pos

def RsmLexer.advance (lexer : RsmLexer) (size : Nat) : RsmLexer :=
  { lexer with pos := lexer.pos + size }

/-! ## Keywords -/

def rsmTolower (ch : Byte) : Byte := ch ||| 0x20

/-- The opcode a word spells; nothing where the C function returns `RSM_INVALID_OPCODE`. -/
def rsmLexerTokenizeOpcode (str : List Byte) : Option RvmOpcode :=
  match str.map rsmTolower with
  | [c0, c1] => if c0 = chr 'j' ∧ c1 = chr 'z' then some .jz else none
  | [c0, c1, c2] =>
    if c0 = chr 'm' then
      if c1 = chr 'o' ∧ c2 = chr 'v' then some .mov
      else if c1 = chr 'u' ∧ c2 = chr 'l' then some .mul
      else if c1 = chr 'o' ∧ c2 = chr 'd' then some .mod
      else none
    else if c0 = chr 'a' then
      if c1 = chr 'd' ∧ c2 = chr 'd' then some .add else none
    else if c0 = chr 's' then
      if c1 = chr 'u' ∧ c2 = chr 'b' then some .sub
      else if c1 = chr 'h' ∧ c2 = chr 'l' then some .shl
      else if c1 = chr 'h' ∧ c2 = chr 'r' then some .shr
      else none
    else if c0 = chr 'd' then
      if c1 = chr 'i' ∧ c2 = chr 'v' then some .div else none
    else if c0 = chr 'c' then
      if c1 = chr 'm' ∧ c2 = chr 'p' then some .cmp else none
    else if c0 = chr 'j' then
      if c1 = chr 'm' ∧ c2 = chr 'p' then some .jmp
      else if c1 = chr 'n' ∧ c2 = chr 'z' then some .jnz
      else none
    else if c0 = chr 'r' then
      if c1 = chr 'e' ∧ c2 = chr 't' then some .ret else none
    else none
  | [c0, c1, c2, c3] =>
    if c0 = chr 'l' ∧ c1 = chr 'o' ∧ c2 = chr 'a' ∧ c3 = chr 'd' then some .load
    else if c0 = chr 'c' ∧ c1 = chr 'a' ∧ c2 = chr 'l' ∧ c3 = chr 'l' then some .call
    else none
  | [c0, c1, c2, c3, c4] =>
    if c0 = chr 's' ∧ c1 = chr 't' ∧ c2 = chr 'o' ∧ c3 = chr 'r' ∧ c4 = chr 'e' then some .store
    else none
  | _ => none

/-- The register a word spells; nothing where the C function returns `RSM_INVALID_REG`. -/
def rsmLexerTokenizeReg (str : List Byte) : Option RvmReg :=
  match str with
  | [c0, c1, c2] =>
    if rsmTolower c0 = chr 'r' ∧ rsmTolower c1 = chr 'v' then
      -- the digit is compared as it stands, without the case fold
      if (chr '0').toInt ≤ c2.toInt ∧ c2.toInt ≤ (chr '7').toInt then
        some (Fin.ofNat 8 (c2.toNat - (chr '0').toNat))
      else none
    else none
  | _ => none

/-! ## Numbers -/

def LONG_MAX : Nat := 0x7FFFFFFFFFFFFFFF
def INT32_MIN : Int := -0x80000000
def INT32_MAX : Int := 0x7FFFFFFF

/-- The value of a digit of any base up to 36; 36 for a byte that is no digit. -/
def digitValue (ch : Byte) : Nat :=
  if 0x30 ≤ ch.toNat ∧ ch.toNat ≤ 0x39 then ch.toNat - 0x30
  else if 0x41 ≤ ch.toNat ∧ ch.toNat ≤ 0x5A then ch.toNat - 0x41 + 10
  else if 0x61 ≤ ch.toNat ∧ ch.toNat ≤ 0x7A then ch.toNat - 0x61 + 10
  else 36

/-- The base `strtol` finds for base 0, and the length of the prefix that announces it. A `0x`
without a hexadecimal digit behind it is no prefix. -/
def strtolBase (str : List Byte) : Nat × Nat :=
  match str with
  | c0 :: c1 :: c2 :: _ =>
    if c0 = chr '0' ∧ (c1 = chr 'x' ∨ c1 = chr 'X') ∧ digitValue c2 < 16 then (16, 2)
    else if c0 = chr '0' then (8, 0)
    else (10, 0)
  | c0 :: _ => if c0 = chr '0' then (8, 0) else (10, 0)
  | [] => (10, 0)

/-- `strtol(str, &end, 0)` with a 64-bit `long`, on a text that starts with no blank and no sign:
the value, and how far `end` is from `str`. -/
def strtol (str : List Byte) : Int × Nat :=
  let (base, skip) := strtolBase str
  let digits := ((str.drop skip).map digitValue).takeWhile fun d => decide (d < base)
  let value := digits.foldl (fun n d => n * base + d) 0
  (min value LONG_MAX, if digits = [] then 0 else skip + digits.length)

/-! ## Scanning -/

/-- How many bytes the loops before a token skip: blanks other than newlines, and comments up to
their newline. The flag says whether the loop is inside a comment. -/
def skipTrivia : Bool → List Byte → Traced RsmEvent Nat
  | _, [] => return 0
  | false, ch :: rest => do
    let space ← isspace ch.toNat
    if space = true ∧ ch ≠ chr '\n' then
      let skipped ← skipTrivia false rest
      return skipped + 1
    else if ch = chr ';' then
      let skipped ← skipTrivia true rest
      return skipped + 1
    else
      return 0
  | true, ch :: rest => do
    if ch ≠ chr '\n' then
      let skipped ← skipTrivia true rest
      return skipped + 1
    else
      -- the blank loop looks at the newline once more, and stops at it
      let _ ← isspace ch.toNat
      return 0

/-- The identifier at the start of a text. -/
def scanIdent : List Byte → Traced RsmEvent RsmIdent
  | [] => return .empty
  | ch :: rest => do
    let _ ← isalnum ch.toInt
    if h : isIdentChar ch = true then
      let name ← scanIdent rest
      return .cons ch h name
    else
      return .empty

/-- The tokens of a single character. -/
def punctuation (ch : Byte) : Option RsmTokenType :=
  if ch = chr ',' then some .comma
  else if ch = chr ':' then some .colon
  else if ch = chr '[' then some .lbracket
  else if ch = chr ']' then some .rbracket
  else if ch = chr '\n' then some .newline
  else none

/-- The type of the token a scanned word is. -/
def wordType (name : RsmIdent) : RsmTokenType :=
  match rsmLexerTokenizeOpcode name.bytes with
  | some opcode => .opcode opcode
  | none =>
    match rsmLexerTokenizeReg name.bytes with
    | some reg => .reg reg
    | none => .ident name

/-- The token at a digit, with the text from the digit on. -/
def tokenizeNumber (lexer : RsmLexer) (text : List Byte) :
    Traced RsmEvent (RsmToken × RsmLexer) := do
  let (value, size) := strtol text
  if size = 0 then
    Traced.emit (.error "invalid number")
    return (⟨.invalid, 0⟩, lexer)
  else if value < INT32_MIN ∨ value > INT32_MAX then
    Traced.emit (.error "number out of range")
    return (⟨.invalid, 0⟩, lexer.advance size)
  else
    return (⟨.number (BitVec.ofInt 32 value), size⟩, lexer.advance size)

def rsmLexerTokenize (lexer : RsmLexer) : Traced RsmEvent (RsmToken × RsmLexer) := do
  Traced.emit .tokenize
  let skipped ← skipTrivia false lexer.rest
  let lexer := lexer.advance skipped
  match lexer.rest with
  | [] => return (⟨.eof, 0⟩, lexer)
  | ch :: rest =>
    match punctuation ch with
    | some type => return (⟨type, 1⟩, lexer.advance 1)
    | none => do
      let alpha ← isalpha ch.toInt
      if alpha = true ∨ ch = chr '_' then
        let name ← scanIdent (ch :: rest)
        return (⟨wordType name, name.bytes.length⟩, lexer.advance name.bytes.length)
      else
        let digit ← isdigit ch.toInt
        if digit = true then
          tokenizeNumber lexer (ch :: rest)
        else
          Traced.emit (.error "unexpected character: %c" [.int ch.toInt])
          return (⟨.invalid, 0⟩, lexer.advance 1)

end RocketVm
