import Mathlib.Tactic.Common

/-!
# Texts in a buffer that fills up

A buffer of `cap` cells with an offset takes one text after the other, and drops what it has no room
for. `Saturated` says that the cells before the offset are the beginning of all texts so far. Lines
that have gone through such a buffer can be read back if there was room for them
(`splitOn_lines_iff`).
-/

namespace Lib

variable {α : Type}

/-- The cells before the offset are the first `cap` items of a text. -/
structure Saturated (cap : Nat) (cell : Nat → α) (offset : Nat) (text : List α) : Prop where
  offset_eq : offset = min text.length cap
  cells : ∀ j < offset, text[j]? = some (cell j)

namespace Saturated

variable {cap offset offset' : Nat} {cell cell' : Nat → α} {text : List α}

theorem nil (cell : Nat → α) : Saturated cap cell 0 [] :=
  ⟨(Nat.zero_min cap).symm, fun _ h => absurd h (Nat.not_lt_zero _)⟩

theorem offset_le (saturated : Saturated cap cell offset text) : offset ≤ cap :=
  saturated.offset_eq ▸ Nat.min_le_right _ _

/-- **Another text.** It goes behind the offset, as far as there is room. -/
theorem append (saturated : Saturated cap cell offset text) {more : List α}
    (end_ : offset' = min (offset + more.length) cap) (kept : ∀ j < offset, cell' j = cell j)
    (added : ∀ j, offset + j < offset' → more[j]? = some (cell' (offset + j))) :
    Saturated cap cell' offset' (text ++ more) := by
  obtain ⟨start, cells⟩ := saturated
  constructor
  · rw [List.length_append]
    omega
  · intro j before
    rcases Nat.lt_or_ge j offset with old | new
    · rw [List.getElem?_append_left (by omega), kept j old]
      exact cells j old
    · obtain ⟨d, rfl⟩ := Nat.exists_eq_add_of_le new
      have full : offset = text.length := by omega
      rw [List.getElem?_append_right (by omega), full, Nat.add_sub_cancel_left, ← full]
      exact added d before

theorem front (saturated : Saturated cap cell offset text) :
    (List.range offset).map cell = text.take cap := by
  obtain ⟨end_, cells⟩ := saturated
  refine List.ext_getElem? fun j => ?_
  rw [List.getElem?_map, List.getElem?_take]
  rcases Nat.lt_or_ge j offset with before | after
  · rw [List.getElem?_range before, Option.map_some, if_pos (by omega), cells j before]
  · rw [List.getElem?_eq_none (by rwa [List.length_range]), Option.map_none]
    split
    · exact (List.getElem?_eq_none (by omega)).symm
    · rfl

end Saturated

/-! ## Reading lines back -/

section Lines

variable [DecidableEq α] {sep : α}

theorem length_splitOn (sep : α) (xs : List α) : (xs.splitOn sep).length = xs.count sep + 1 := by
  induction xs with
  | nil => rfl
  | cons x xs ih =>
    rw [List.splitOn_cons_eq_if_modifyHead, List.count_cons]
    split
    · rw [List.length_cons, ih]
    · rw [List.length_modifyHead, ih]

/-- A line that is cut off at `cap` items keeps its separator exactly if it is shorter. -/
theorem count_take_line {cap : Nat} {line : List α} (plain : sep ∉ line) :
    ((line ++ [sep]).take cap).count sep = if line.length < cap then 1 else 0 := by
  split
  · next short =>
    rw [List.take_of_length_le, List.count_append, List.count_eq_zero_of_not_mem plain,
      List.count_singleton_self]
    rw [List.length_append]
    exact short
  · next long =>
    rw [List.take_append_of_le_length (Nat.not_lt.mp long)]
    exact List.count_eq_zero_of_not_mem fun inside => plain (List.mem_of_mem_take inside)

theorem count_lines {cap : Nat} {lines : List (List α)} (plain : ∀ line ∈ lines, sep ∉ line) :
    (lines.flatMap fun line => (line ++ [sep]).take cap).count sep =
      lines.countP fun line => decide (line.length < cap) := by
  induction lines with
  | nil => rfl
  | cons line lines ih =>
    rw [List.forall_mem_cons] at plain
    rw [List.flatMap_cons, List.count_append, count_take_line plain.1, ih plain.2,
      List.countP_cons, Nat.add_comm]
    simp only [decide_eq_true_eq]

/-- **Lines that are cut off.** Lines without separators, each cut off at `cap` items with its
separator, are read back exactly if none of them is that long. -/
theorem splitOn_lines_iff {cap : Nat} {lines : List (List α)} (plain : ∀ line ∈ lines, sep ∉ line) :
    (lines.flatMap fun line => (line ++ [sep]).take cap).splitOn sep = lines ++ [[]] ↔
      ∀ line ∈ lines, line.length < cap := by
  constructor
  · intro read
    have pieces := length_splitOn sep (lines.flatMap fun line => (line ++ [sep]).take cap)
    rw [read, List.length_append, count_lines plain] at pieces
    have all := List.countP_eq_length.mp (Nat.succ.inj pieces).symm
    exact fun line member => of_decide_eq_true (all line member)
  · intro short
    induction lines with
    | nil => rfl
    | cons line lines ih =>
      rw [List.forall_mem_cons] at plain short
      have whole : (line ++ [sep]).take cap = line ++ [sep] :=
        List.take_of_length_le (by rw [List.length_append]; exact short.1)
      rw [List.flatMap_cons, whole, List.append_assoc, List.singleton_append,
        List.splitOn_append_cons_self, ih plain.2 short.2,
        List.splitOn_eq_singleton plain.1]
      rfl

end Lines

end Lib
