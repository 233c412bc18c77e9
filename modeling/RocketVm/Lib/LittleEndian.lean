import Mathlib.Data.Nat.Bitwise
import Mathlib.Tactic.Common

/-!
# Little-endian words in a byte store

A byte store of `n` cells is a function `Fin n → BitVec 8`, addressed by natural numbers: a
read outside the store answers zero and a write outside it does nothing, so that the bounds are
a matter for the program that uses the store. A 16-bit word at address `a` is the byte at `a`
(low) and the byte at `a + 1` (high).
-/

namespace Lib

/-! ## Bytes of a word -/

/-- The 16-bit word with the given low and high bytes. -/
def ofBytes (low high : BitVec 8) : BitVec 16 :=
  (high.setWidth 16 <<< 8) ||| low.setWidth 16

/-- The low byte of a word. -/
def loByte (w : BitVec 16) : BitVec 8 := (w &&& 0xFF#16).setWidth 8

/-- The high byte of a word. -/
def hiByte (w : BitVec 16) : BitVec 8 := ((w >>> 8) &&& 0xFF#16).setWidth 8

private theorem land_255 (n : Nat) : n &&& 255 = n % 256 :=
  Nat.and_two_pow_sub_one_eq_mod n 8

theorem loByte_toNat (w : BitVec 16) : (loByte w).toNat = w.toNat % 256 := by
  simp only [loByte, BitVec.toNat_setWidth, BitVec.toNat_and, BitVec.toNat_ofNat, Nat.reduceMod,
    Nat.reducePow, land_255]
  omega

theorem hiByte_toNat (w : BitVec 16) : (hiByte w).toNat = w.toNat / 256 := by
  have := w.isLt
  simp only [hiByte, BitVec.toNat_setWidth, BitVec.toNat_and, BitVec.toNat_ushiftRight,
    BitVec.toNat_ofNat, Nat.reduceMod, Nat.reducePow, land_255, Nat.shiftRight_eq_div_pow]
  omega

theorem ofBytes_toNat (low high : BitVec 8) :
    (ofBytes low high).toNat = high.toNat * 256 + low.toNat := by
  have hl := low.isLt
  have hh := high.isLt
  have shifted : high.toNat <<< 8 = high.toNat * 256 := Nat.shiftLeft_eq _ _
  have disjoint : high.toNat <<< 8 ||| low.toNat = high.toNat <<< 8 + low.toNat :=
    (Nat.shiftLeft_add_eq_or_of_lt hl high.toNat).symm
  simp only [ofBytes, BitVec.toNat_or, BitVec.toNat_shiftLeft, BitVec.toNat_setWidth]
  rw [Nat.mod_eq_of_lt (by omega : high.toNat < 2 ^ 16),
    Nat.mod_eq_of_lt (by omega : low.toNat < 2 ^ 16),
    Nat.mod_eq_of_lt (by omega : high.toNat <<< 8 < 2 ^ 16), disjoint, shifted]

/-- A word is the word of its two bytes. -/
theorem ofBytes_bytes (w : BitVec 16) : ofBytes (loByte w) (hiByte w) = w := by
  apply BitVec.eq_of_toNat_eq
  rw [ofBytes_toNat, loByte_toNat, hiByte_toNat]
  omega

/-- The bytes of a list of words, the low byte of each first. -/
def wordsToBytes (ws : List (BitVec 16)) : List (BitVec 8) :=
  ws.flatMap fun w => [loByte w, hiByte w]

theorem length_wordsToBytes (ws : List (BitVec 16)) : (wordsToBytes ws).length = 2 * ws.length := by
  induction ws with
  | nil => rfl
  | cons w ws ih =>
    show (wordsToBytes ws).length + 1 + 1 = 2 * (ws.length + 1)
    omega

/-- The two bytes of each word are found at twice its index. -/
theorem getElem?_wordsToBytes {ws : List (BitVec 16)} {i : Nat} {w : BitVec 16}
    (h : ws[i]? = some w) :
    (wordsToBytes ws)[2 * i]? = some (loByte w) ∧
      (wordsToBytes ws)[2 * i + 1]? = some (hiByte w) := by
  induction ws generalizing i with
  | nil => cases h
  | cons w' ws ih =>
    cases i with
    | zero =>
      cases h
      exact ⟨rfl, rfl⟩
    | succ i => exact ih h

/-! ## The store -/

/-- A byte store of `n` cells. -/
abbrev ByteStore (n : Nat) := Fin n → BitVec 8

namespace ByteStore

variable {n : Nat}

/-- The byte at an address, zero outside the store. -/
def get (m : ByteStore n) (a : Nat) : BitVec 8 := if h : a < n then m ⟨a, h⟩ else 0

/-- The store with the byte at `a` replaced, unchanged when `a` is outside it. -/
def set (m : ByteStore n) (a : Nat) (b : BitVec 8) : ByteStore n :=
  fun i => if i.val = a then b else m i

/-- The word at `a`, low byte first. -/
def getWord (m : ByteStore n) (a : Nat) : BitVec 16 := ofBytes (m.get a) (m.get (a + 1))

/-- The store with the word at `a` replaced, low byte first. -/
def setWord (m : ByteStore n) (a : Nat) (w : BitVec 16) : ByteStore n :=
  (m.set a (loByte w)).set (a + 1) (hiByte w)

theorem get_set (m : ByteStore n) {a : Nat} (b : BitVec 8) (i : Nat) (ha : a < n) :
    (m.set a b).get i = if i = a then b else m.get i := by
  by_cases hi : i < n
  · simp only [get, hi, ↓reduceDIte, set]
  · have : i ≠ a := by omega
    simp only [get, hi, ↓reduceDIte, this, ↓reduceIte]

/-- What a word write leaves at every address. -/
theorem get_setWord (m : ByteStore n) {a : Nat} (w : BitVec 16) (i : Nat) (ha : a + 1 < n) :
    (m.setWord a w).get i =
      if i = a then loByte w else if i = a + 1 then hiByte w else m.get i := by
  rw [setWord, get_set _ _ _ ha, get_set _ _ _ (by omega)]
  by_cases h : i = a
  · subst h
    simp
  · simp only [h, ↓reduceIte]

/-- A word write does not reach the other bytes. -/
theorem get_setWord_of_ne (m : ByteStore n) {a i : Nat} (w : BitVec 16) (ha : a + 1 < n)
    (h : i ≠ a) (h' : i ≠ a + 1) : (m.setWord a w).get i = m.get i := by
  rw [get_setWord _ _ _ ha, if_neg h, if_neg h']

/-- Reading a word back where it was written. -/
theorem getWord_setWord_self (m : ByteStore n) {a : Nat} (w : BitVec 16) (ha : a + 1 < n) :
    (m.setWord a w).getWord a = w := by
  rw [getWord, get_setWord _ _ _ ha, get_setWord _ _ _ ha]
  simp [ofBytes_bytes]

/-- A word write does not change a word that shares no byte with it. -/
theorem getWord_setWord_of_disjoint (m : ByteStore n) {a i : Nat} (w : BitVec 16)
    (ha : a + 1 < n) (h : i + 1 < a ∨ a + 1 < i) : (m.setWord a w).getWord i = m.getWord i := by
  rw [getWord, getWord, get_setWord_of_ne _ _ ha (by omega) (by omega),
    get_setWord_of_ne _ _ ha (by omega) (by omega)]

end ByteStore

end Lib
