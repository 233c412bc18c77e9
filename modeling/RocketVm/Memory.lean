import RocketVm.Isa
import RocketVm.Lib.LittleEndian

/-!
# Memory

The memory map and the accessors of `rocketvm/memory.h`, and the events a VM function leaves in
its trace. The 16-bit accessors assert their offset; the event records the offset, so that what
the assertion demands is a property of the trace.
-/

namespace RocketVm

open Lib

/-! ## The memory map -/

def RVM_MEMORY_SIZE : Nat := 0x10000
def RVM_MEMORY_PROGRAM_START : Nat := 0x0000
def RVM_MEMORY_PROGRAM_END : Nat := 0x7FFF
def RVM_MEMORY_STACK_START : Nat := 0xF000
def RVM_MEMORY_STACK_END : Nat := 0xFEFF

/-- `rvm_memory_t`. -/
structure RvmMemory where
  data : ByteStore 0x10000

/-! ## What the trace of a VM function records -/

/-- An event of the virtual machine. -/
inductive RvmEvent
  /-- A call of `rvm_memory_read_uint16`. -/
  | read (offset : Word)
  /-- A call of `rvm_memory_write_uint16`. -/
  | write (offset data : Word)
  /-- The divisor of a C `/` or `%`. -/
  | divide (divisor : Word)
  /-- The value of a `+`, `-`, `*` or `<<` that C computes in `int`. -/
  | int (value : Int)
  /-- The count of a C shift. -/
  | shift (count : Int)
  /-- The exact value of a `+=` or `-=` on a 16-bit register, before it is stored. -/
  | assign16 (exact : Int)
  /-- A call of `rvm_error` with a fixed text. -/
  | error (text : String)
  /-- A call of `rvm_error` with a text and a 16-bit number: what `rvm_cpu_fault` prints. -/
  | fault (text : String) (value : Word)
deriving DecidableEq, Repr

/-! ## Accessors -/

/-- `mem->data[index]`. -/
def RvmMemory.byte (mem : RvmMemory) (index : Nat) : Byte := mem.data.get index

def rvmMemoryReadUint16 (mem : RvmMemory) (offset : Word) : Traced RvmEvent Word := do
  Traced.emit (.read offset)
  let low := mem.byte offset.toNat
  let high := mem.byte (offset.toNat + 1)
  return (high.setWidth 16 <<< 8) ||| low.setWidth 16

def rvmMemoryWriteUint16 (mem : RvmMemory) (offset data : Word) : Traced RvmEvent RvmMemory := do
  Traced.emit (.write offset data)
  let low : Byte := (data &&& 0xFF).setWidth 8
  let high : Byte := ((data >>> 8) &&& 0xFF).setWidth 8
  return ⟨(mem.data.set offset.toNat low).set (offset.toNat + 1) high⟩

/-! ## Words in memory -/

/-- The word at an address, as a read of it answers. -/
def RvmMemory.word (mem : RvmMemory) (index : Nat) : Word := mem.data.getWord index

/-- The memory with the word at an address replaced, as a write of it leaves it. -/
def RvmMemory.setWord (mem : RvmMemory) (index : Nat) (data : Word) : RvmMemory :=
  ⟨mem.data.setWord index data⟩

@[simp] theorem rvmMemoryReadUint16_val (mem : RvmMemory) (offset : Word) :
    (rvmMemoryReadUint16 mem offset).val = mem.word offset.toNat := rfl

@[simp] theorem rvmMemoryReadUint16_events (mem : RvmMemory) (offset : Word) :
    (rvmMemoryReadUint16 mem offset).events = [.read offset] := rfl

@[simp] theorem rvmMemoryWriteUint16_val (mem : RvmMemory) (offset data : Word) :
    (rvmMemoryWriteUint16 mem offset data).val = mem.setWord offset.toNat data := rfl

@[simp] theorem rvmMemoryWriteUint16_events (mem : RvmMemory) (offset data : Word) :
    (rvmMemoryWriteUint16 mem offset data).events = [.write offset data] := rfl

/-- A word write reaches no other byte. -/
theorem RvmMemory.byte_setWord_of_ne (mem : RvmMemory) {a i : Nat} (w : Word)
    (ha : a + 1 < 0x10000) (h : i ≠ a) (h' : i ≠ a + 1) : (mem.setWord a w).byte i = mem.byte i :=
  ByteStore.get_setWord_of_ne mem.data w ha h h'

/-- A word is read back where it was written. -/
theorem RvmMemory.word_setWord_self (mem : RvmMemory) {a : Nat} (w : Word)
    (ha : a + 1 < 0x10000) : (mem.setWord a w).word a = w :=
  ByteStore.getWord_setWord_self mem.data w ha

/-- A word write leaves the words that share no byte with it. -/
theorem RvmMemory.word_setWord_of_disjoint (mem : RvmMemory) {a i : Nat} (w : Word)
    (ha : a + 1 < 0x10000) (h : i + 1 < a ∨ a + 1 < i) :
    (mem.setWord a w).word i = mem.word i :=
  ByteStore.getWord_setWord_of_disjoint mem.data w ha h

/-- The word at an address depends on its two bytes alone. -/
theorem RvmMemory.word_congr {mem mem' : RvmMemory} {i : Nat} (low : mem.byte i = mem'.byte i)
    (high : mem.byte (i + 1) = mem'.byte (i + 1)) : mem.word i = mem'.word i := by
  simp only [RvmMemory.byte] at low high
  simp only [RvmMemory.word, ByteStore.getWord, low, high]

end RocketVm
