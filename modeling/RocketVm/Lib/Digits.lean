import Mathlib.Data.Nat.Digits.Lemmas
import Mathlib.Tactic.Common

/-!
# Numerals

The digits of a number in the order in which it is written, and the number that such digits stand
for. A numeral has no leading zeros unless it is padded to a width.
-/

namespace Lib

/-- The digits of a number, the most significant one first. Zero has one digit. -/
def numeral (base n : Nat) : List Nat := if n = 0 then [0] else (Nat.digits base n).reverse

/-- The number that digits stand for. -/
def ofNumeral (base : Nat) (ds : List Nat) : Nat := ds.foldl (fun n d => n * base + d) 0

/-- Zeros in front, up to a width. -/
def padZeros (width : Nat) (ds : List Nat) : List Nat :=
  List.replicate (width - ds.length) 0 ++ ds

theorem ofNumeral_reverse (base : Nat) (ds : List Nat) :
    ofNumeral base ds.reverse = Nat.ofDigits base ds := by
  rw [ofNumeral, List.foldl_reverse, Nat.ofDigits_eq_foldr]
  congr 1
  funext d n
  rw [Nat.mul_comm, Nat.add_comm]
  rfl

@[simp] theorem ofNumeral_numeral (base n : Nat) : ofNumeral base (numeral base n) = n := by
  unfold numeral
  split
  · next zero =>
    rw [zero, ofNumeral, List.foldl_cons, Nat.zero_mul]
    rfl
  · rw [ofNumeral_reverse, Nat.ofDigits_digits]

theorem lt_of_mem_numeral {base n d : Nat} (large : 1 < base) (mem : d ∈ numeral base n) :
    d < base := by
  unfold numeral at mem
  split at mem
  · cases List.mem_singleton.mp mem
    exact Nat.zero_lt_of_lt large
  · exact Nat.digits_lt_base large (List.mem_reverse.mp mem)

theorem numeral_ne_nil (base n : Nat) : numeral base n ≠ [] := by
  unfold numeral
  split
  · exact List.cons_ne_nil _ _
  · next nonzero => rwa [ne_eq, List.reverse_eq_nil_iff, Nat.digits_eq_nil_iff_eq_zero]

/-- Only the numeral of zero begins with a zero. -/
theorem numeral_leading {base n : Nat} {ds : List Nat} (begins : numeral base n = 0 :: ds) :
    ds = [] := by
  unfold numeral at begins
  split at begins
  · cases begins
    rfl
  · next nonzero =>
    have last := Nat.getLast_digit_ne_zero base nonzero
    have split : Nat.digits base n = ds.reverse ++ [0] := by
      rw [← List.reverse_reverse (Nat.digits base n), begins, List.reverse_cons]
    refine absurd ?_ last
    simp only [split, List.getLast_append_singleton]

/-! ## Padding -/

@[simp] theorem ofNumeral_padZeros (base width : Nat) (ds : List Nat) :
    ofNumeral base (padZeros width ds) = ofNumeral base ds := by
  unfold padZeros
  generalize width - ds.length = zeros
  induction zeros with
  | zero => rfl
  | succ zeros ih =>
    rw [← ih, List.replicate_succ, List.cons_append, ofNumeral, List.foldl_cons, Nat.zero_mul]
    rfl

theorem padZeros_injective (base width : Nat) :
    Function.Injective fun n => padZeros width (numeral base n) := by
  intro m n same
  have value := congrArg (ofNumeral base) same
  simpa only [ofNumeral_padZeros, ofNumeral_numeral] using value

theorem lt_of_mem_padZeros {base width n d : Nat} (large : 1 < base)
    (mem : d ∈ padZeros width (numeral base n)) : d < base := by
  rcases List.mem_append.mp mem with zero | digit
  · rw [(List.mem_replicate.mp zero).2]
    exact Nat.zero_lt_of_lt large
  · exact lt_of_mem_numeral large digit

end Lib
