import RocketVm.Isa
import RocketVm.Lib.Digits

/-!
# Text

Characters as bytes, and the conversions of `printf` that the program uses. A printed text is its
bytes.
-/

namespace RocketVm

open Lib

/-- A character constant of the source. -/
def chr (c : Char) : Byte := BitVec.ofNat 8 c.toNat

/-- The characters of a string of the source. -/
def bytesOf (s : String) : List Byte := s.toList.map chr

/-- The character of a digit, with the letters of `%x`. -/
def digitChar (d : Nat) : Byte :=
  if d < 10 then BitVec.ofNat 8 ((chr '0').toNat + d)
  else BitVec.ofNat 8 ((chr 'a').toNat + (d - 10))

/-- `%u` and `%zu`. -/
def printU (n : Nat) : List Byte := (numeral 10 n).map digitChar

/-- `%d` of an `int32_t`. -/
def printD (v : BitVec 32) : List Byte :=
  if v.toInt < 0 then chr '-' :: printU v.toInt.natAbs else printU v.toInt.natAbs

/-- `%04zu`. -/
def printU04 (n : Nat) : List Byte := (padZeros 4 (numeral 10 n)).map digitChar

/-- `%04x`. -/
def printX04 (n : Nat) : List Byte := (padZeros 4 (numeral 16 n)).map digitChar

end RocketVm
