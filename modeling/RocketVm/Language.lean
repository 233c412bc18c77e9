import RocketVm.Asm.Program

/-!
# The assembly language

The input language of the assembler, stated on its own: the operands each opcode takes, programs as
sequences of labels and instructions, the token sequences that stand for a program, and the texts
that spell a token sequence. Nothing here is translated from the lexer or the parser; `Laws` says
how far they agree with it.
-/

namespace RocketVm

open Lib

/-! ## Instructions -/

/-- The opcodes with a destination register and a register or immediate. -/
def RvmOpcode.takesSource : RvmOpcode → Bool
  | .mov | .add | .sub | .mul | .div | .mod | .shl | .shr | .cmp => true
  | _ => false

/-- The opcodes with a target. -/
def RvmOpcode.transfers : RvmOpcode → Bool
  | .jmp | .jz | .jnz | .call => true
  | _ => false

/-- The instructions of the ISA document: each opcode with exactly the operands it takes. -/
inductive Documented : RsmInstr → Prop
  | ret : Documented ⟨.ret, .none, .none⟩
  | load {rvd mem} (given : mem ≠ .none) : Documented ⟨.load, .reg rvd, .mem mem⟩
  | store {mem rvs} (given : mem ≠ .none) : Documented ⟨.store, .mem mem, .reg rvs⟩
  | sourceReg {op rvd rvs} (takes : op.takesSource = true) : Documented ⟨op, .reg rvd, .reg rvs⟩
  | sourceImm {op rvd v} (takes : op.takesSource = true) : Documented ⟨op, .reg rvd, .imm v⟩
  | toLabel {op name} (transfers : op.transfers = true) : Documented ⟨op, .label name, .none⟩
  | toReg {op r} (transfers : op.transfers = true) : Documented ⟨op, .reg r, .none⟩
  | toImm {op v} (transfers : op.transfers = true) : Documented ⟨op, .imm v, .none⟩

/-! ## Tokens -/

/-- The token between the brackets of a memory operand. -/
def RsmMem.tokens : RsmMem → List RsmTokenType
  | .none => []
  | .imm v => [.number v]
  | .reg r => [.reg r]
  | .label name => [.ident name]

def RsmOperand.tokens : RsmOperand → List RsmTokenType
  | .none => []
  | .imm v => [.number v]
  | .reg r => [.reg r]
  | .label name => [.ident name]
  | .mem m => .lbracket :: (m.tokens ++ [.rbracket])

/-- The operands of an instruction, with a comma before the second one. -/
def operandTokens (opr1 opr2 : RsmOperand) : List RsmTokenType :=
  if opr2 = .none then opr1.tokens else opr1.tokens ++ .comma :: opr2.tokens

def RsmInstr.tokens (instr : RsmInstr) : List RsmTokenType :=
  .opcode instr.opcode :: operandTokens instr.opr1 instr.opr2

/-! ## Programs -/

/-- What a program is made of. -/
inductive RsmItem
  | label (name : RsmIdent)
  | instr (instr : RsmInstr)
deriving DecidableEq, Repr

def RsmItem.instr? : RsmItem → Option RsmInstr
  | .label _ => none
  | .instr i => some i

/-- The instructions of a program. -/
def instrsOf (items : List RsmItem) : List RsmInstr := items.filterMap RsmItem.instr?

/-- The labels of a program, each with the number of the instructions before it, counted from
`n`. -/
def labelsOf : Nat → List RsmItem → List RsmLabel
  | _, [] => []
  | n, .label name :: items => ⟨name, BitVec.ofNat 16 n⟩ :: labelsOf n items
  | n, .instr _ :: items => labelsOf (n + 1) items

/-- A line may end before these tokens: they begin with a newline, or there are none. -/
def LineEnds (ts : List RsmTokenType) : Prop := ts = [] ∨ ∃ ts', ts = .newline :: ts'

/-- **The grammar.** A token sequence stands for a program: label definitions, newlines, and valid
instructions, each followed by a newline or the end. -/
inductive Sentence (valid : RsmInstr → Prop) : List RsmTokenType → List RsmItem → Prop
  | done : Sentence valid [] []
  | newline {ts items} (rest : Sentence valid ts items) : Sentence valid (.newline :: ts) items
  | label {ts items} (name : RsmIdent) (rest : Sentence valid ts items) :
      Sentence valid (.ident name :: .colon :: ts) (.label name :: items)
  | instr {ts items instr} (ok : valid instr) (ends : LineEnds ts)
      (rest : Sentence valid ts items) : Sentence valid (instr.tokens ++ ts) (.instr instr :: items)

/-! ## Spellings -/

/-- A blank between tokens: white space other than a newline. -/
def isBlank (b : Byte) : Bool := isSpaceChar b.toNat && b != chr '\n'

/-- The lower case of a letter; any other byte as it is. -/
def lowerCase (b : Byte) : Byte :=
  if (chr 'A').toNat ≤ b.toNat ∧ b.toNat ≤ (chr 'Z').toNat then b + 0x20 else b

/-- The name of an opcode, in lower case. -/
def RvmOpcode.mnemonic : RvmOpcode → List Byte
  | .mov => ['m', 'o', 'v'].map chr
  | .load => ['l', 'o', 'a', 'd'].map chr
  | .store => ['s', 't', 'o', 'r', 'e'].map chr
  | .add => ['a', 'd', 'd'].map chr
  | .sub => ['s', 'u', 'b'].map chr
  | .mul => ['m', 'u', 'l'].map chr
  | .div => ['d', 'i', 'v'].map chr
  | .mod => ['m', 'o', 'd'].map chr
  | .shl => ['s', 'h', 'l'].map chr
  | .shr => ['s', 'h', 'r'].map chr
  | .cmp => ['c', 'm', 'p'].map chr
  | .jmp => ['j', 'm', 'p'].map chr
  | .jz => ['j', 'z'].map chr
  | .jnz => ['j', 'n', 'z'].map chr
  | .call => ['c', 'a', 'l', 'l'].map chr
  | .ret => ['r', 'e', 't'].map chr

/-- The name of a register, in lower case. -/
def RvmReg.name (r : RvmReg) : List Byte := [chr 'r', chr 'v', chr '0' + BitVec.ofNat 8 r.val]

/-- A letter or an underscore: what a name begins with. -/
def isNameStart (b : Byte) : Bool := isAlphaChar b.toInt || b == chr '_'

/-- The identifier can name a label: it does not begin with a digit, and in no letter case is it an
opcode or a register. -/
structure RsmIdent.IsName (name : RsmIdent) : Prop where
  start : ∃ b bs, name.bytes = b :: bs ∧ isNameStart b = true
  noOpcode : ∀ op : RvmOpcode, name.bytes.map lowerCase ≠ op.mnemonic
  noReg : ∀ r : RvmReg, name.bytes.map lowerCase ≠ RvmReg.name r

/-- The number that digits of a base stand for. -/
def digitsValue (base : Nat) (digits : List Byte) : Nat :=
  digits.foldl (fun n c => n * base + digitValue c) 0

/-- The ways of writing a number: in decimal without leading zeros, or with a `0x`. -/
inductive NumberText : Nat → List Byte → Prop
  | decimal {d ds} (digits : ∀ c ∈ d :: ds, isDigitChar c.toNat = true)
      (leading : d = chr '0' → ds = []) : NumberText (digitsValue 10 (d :: ds)) (d :: ds)
  | hexadecimal {x d ds} (mark : x = chr 'x' ∨ x = chr 'X')
      (digits : ∀ c ∈ d :: ds, digitValue c < 16) :
      NumberText (digitsValue 16 (d :: ds)) (chr '0' :: x :: d :: ds)

/-- The ways of writing a token. -/
inductive TokenText : RsmTokenType → List Byte → Prop
  | opcode {op text} (word : text.map lowerCase = RvmOpcode.mnemonic op) :
      TokenText (.opcode op) text
  | reg {r text} (word : text.map lowerCase = RvmReg.name r) : TokenText (.reg r) text
  | ident {name} (valid : RsmIdent.IsName name) : TokenText (.ident name) name.bytes
  | number {v text} (number : NumberText v.toNat text) (small : v.toNat < 0x80000000) :
      TokenText (.number v) text
  | comma : TokenText .comma [chr ',']
  | colon : TokenText .colon [chr ':']
  | lbracket : TokenText .lbracket [chr '[']
  | rbracket : TokenText .rbracket [chr ']']
  | newline : TokenText .newline [chr '\n']

/-- The word and number tokens. -/
def RsmTokenType.isWord : RsmTokenType → Bool
  | .opcode _ | .reg _ | .ident _ | .number _ => true
  | _ => false

/-- A comment, or none. -/
inductive Comment : List Byte → Prop
  | none : Comment []
  | text {body} (line : ∀ b ∈ body, b ≠ chr '\n') : Comment (chr ';' :: body)

/-- The text begins with a blank. -/
def BeginsBlank (text : List Byte) : Prop := ∃ b rest, text = b :: rest ∧ isBlank b = true

/-- **The spellings of a token sequence.** Every token may have blanks before it, a newline and the
end also a comment; a word or number is set off by a blank from one that follows it. -/
inductive Spells : List RsmTokenType → List Byte → Prop
  | done {blanks comment} (blank : ∀ b ∈ blanks, isBlank b = true) (remark : Comment comment) :
      Spells [] (blanks ++ comment)
  | token {t ts blanks comment word text} (blank : ∀ b ∈ blanks, isBlank b = true)
      (remark : Comment comment) (place : comment ≠ [] → t = .newline) (spelled : TokenText t word)
      (apart : t.isWord = true → (ts.head?.any RsmTokenType.isWord) = true → BeginsBlank text)
      (rest : Spells ts text) : Spells (t :: ts) (blanks ++ comment ++ word ++ text)

/-- The text is a way of writing the program. -/
def Writes (items : List RsmItem) (text : List Byte) : Prop :=
  ∃ ts, Sentence Documented ts items ∧ Spells ts text

end RocketVm
