import RocketVm.Asm.Emitter
import RocketVm.Laws.Encoder
import RocketVm.Lib.LittleEndian

/-!
# Emission

What `rsm_emit_binary` leaves at the output path, whatever becomes of its calls of `fopen` and
`fwrite`. `emitWords_val` is the effect of the loop: the bytes that were written for the
instructions before the first one without a word. From it follows when emission is all or nothing,
whatever the file held before (`emission_atomic_iff`).
-/

namespace RocketVm

open Lib

/-! ## The words of a program -/

/-- The words of the instructions from an index on. -/
def wordsFrom (program : RsmProgram) : Nat → List RsmInstr → List Word
  | _, [] => []
  | i, instr :: instrs =>
    BitVec.ofInt 16 (rsmEncodeInstr program instr i).val :: wordsFrom program (i + 1) instrs

theorem length_wordsFrom (program : RsmProgram) (i : Nat) (instrs : List RsmInstr) :
    (wordsFrom program i instrs).length = instrs.length := by
  induction instrs generalizing i with
  | nil => rfl
  | cons instr instrs ih => exact congrArg Nat.succ (ih (i + 1))

theorem getElem?_wordsFrom (program : RsmProgram) {i j : Nat} {instrs : List RsmInstr}
    {instr : RsmInstr} (at_ : instrs[j]? = some instr) :
    (wordsFrom program i instrs)[j]? =
      some (BitVec.ofInt 16 (rsmEncodeInstr program instr (i + j)).val) := by
  induction instrs generalizing i j with
  | nil => cases at_
  | cons instr' instrs ih =>
    cases j with
    | zero =>
      cases at_
      rfl
    | succ j =>
      have := ih (i := i + 1) at_
      rw [Nat.add_right_comm] at this
      exact this

/-- Every instruction from an index on has a word. -/
def AllEncoded (program : RsmProgram) (i : Nat) (instrs : List RsmInstr) : Prop :=
  ∀ j instr, instrs[j]? = some instr → (rsmEncodeInstr program instr (i + j)).val ≠ -1

theorem allEncoded_cons {program : RsmProgram} {i : Nat} {instr : RsmInstr}
    {instrs : List RsmInstr} : AllEncoded program i (instr :: instrs) ↔
      (rsmEncodeInstr program instr i).val ≠ -1 ∧ AllEncoded program (i + 1) instrs := by
  constructor
  · intro all
    refine ⟨all 0 instr rfl, fun j instr' at_ => ?_⟩
    have later := all (j + 1) instr' at_
    rwa [← Nat.add_assoc, Nat.add_right_comm] at later
  · rintro ⟨first, rest⟩ j instr' at_
    cases j with
    | zero =>
      cases at_
      exact first
    | succ j =>
      have later := rest j instr' at_
      rwa [Nat.add_right_comm] at later

/-- The words of the instructions before the first one that has none. -/
def encodedPrefix (program : RsmProgram) : Nat → List RsmInstr → List Word
  | _, [] => []
  | i, instr :: instrs =>
    if (rsmEncodeInstr program instr i).val = -1 then []
    else BitVec.ofInt 16 (rsmEncodeInstr program instr i).val ::
      encodedPrefix program (i + 1) instrs

theorem encodedPrefix_of_all {program : RsmProgram} {i : Nat} {instrs : List RsmInstr}
    (all : AllEncoded program i instrs) :
    encodedPrefix program i instrs = wordsFrom program i instrs := by
  induction instrs generalizing i with
  | nil => rfl
  | cons instr instrs ih =>
    obtain ⟨first, rest⟩ := allEncoded_cons.mp all
    rw [encodedPrefix, if_neg first, ih rest]
    rfl

/-! ## What is written -/

/-- The bytes that the calls of `fwrite` put into the file, from an index on. -/
def writtenBytes (io : RsmOutput) : Nat → List Word → List Byte
  | _, [] => []
  | i, w :: ws => (wordBytes w).take (io.fwrite i) ++ writtenBytes io (i + 1) ws

/-- Complete writes leave the bytes of the words. -/
theorem writtenBytes_complete {io : RsmOutput} {i : Nat} {ws : List Word}
    (complete : ∀ j < ws.length, 2 ≤ io.fwrite (i + j)) :
    writtenBytes io i ws = wordsToBytes ws := by
  induction ws generalizing i with
  | nil => rfl
  | cons w ws ih =>
    have first : (wordBytes w).take (io.fwrite i) = wordBytes w :=
      List.take_of_length_le (complete 0 (Nat.succ_pos _))
    have rest := ih (i := i + 1) fun j hj => by
      have := complete (j + 1) (Nat.succ_lt_succ hj)
      rwa [← Nat.add_assoc, Nat.add_right_comm] at this
    rw [writtenBytes, first, rest]
    rfl

theorem length_writtenBytes_le (io : RsmOutput) (i : Nat) (ws : List Word) :
    (writtenBytes io i ws).length ≤ 2 * ws.length := by
  induction ws generalizing i with
  | nil => exact Nat.le_refl _
  | cons w ws ih =>
    have first : ((wordBytes w).take (io.fwrite i)).length ≤ 2 := List.length_take_le' _ _
    have rest := ih (i + 1)
    rw [writtenBytes, List.length_append, List.length_cons]
    omega

/-- The bytes of the words are there only if every write was complete. -/
theorem complete_of_writtenBytes {io : RsmOutput} {i : Nat} {ws : List Word}
    (full : (writtenBytes io i ws).length = 2 * ws.length) :
    ∀ j < ws.length, 2 ≤ io.fwrite (i + j) := by
  induction ws generalizing i with
  | nil => exact fun j hj => absurd hj (Nat.not_lt_zero j)
  | cons w ws ih =>
    have first : ((wordBytes w).take (io.fwrite i)).length = min (io.fwrite i) 2 := List.length_take
    have rest := length_writtenBytes_le io (i + 1) ws
    rw [writtenBytes, List.length_append, List.length_cons, first] at full
    intro j hj
    cases j with
    | zero =>
      rw [Nat.add_zero]
      omega
    | succ j =>
      have later := ih (i := i + 1) (by omega) j (Nat.lt_of_succ_lt_succ hj)
      rwa [Nat.add_right_comm] at later

/-- **The effect of the emitter's loop.** -/
theorem emitWords_val (io : RsmOutput) (program : RsmProgram) (i : Nat) (instrs : List RsmInstr)
    (file : List Byte) :
    (emitWords io program i instrs file).val.2 =
        file ++ writtenBytes io i (encodedPrefix program i instrs) ∧
      ((emitWords io program i instrs file).val.1 = 0 ∧ AllEncoded program i instrs ∨
        (emitWords io program i instrs file).val.1 = -1 ∧ ¬ AllEncoded program i instrs) := by
  induction instrs generalizing i file with
  | nil =>
    refine ⟨(List.append_nil _).symm, .inl ⟨rfl, fun j instr at_ => ?_⟩⟩
    cases at_
  | cons instr instrs ih =>
    rw [emitWords, Traced.val_bind, encodedPrefix, allEncoded_cons]
    by_cases none : (rsmEncodeInstr program instr i).val = -1
    · rw [if_pos none, if_pos none]
      exact ⟨(List.append_nil _).symm, .inr ⟨rfl, fun all => all.1 none⟩⟩
    · rw [if_neg none, if_neg none, and_iff_right none]
      obtain ⟨content, result⟩ := ih (i + 1)
        (file ++ (wordBytes (BitVec.ofInt 16 (rsmEncodeInstr program instr i).val)).take
          (io.fwrite i))
      exact ⟨content.trans (List.append_assoc ..), result⟩

/-! ## A working file -/

/-- On a working file, a run of the emitter that succeeds leaves the bytes of the words. -/
theorem emitWords_bytes {program : RsmProgram} {i : Nat} {instrs : List RsmInstr} {file : List Byte}
    (h : (emitWords .working program i instrs file).val.1 = 0) :
    (emitWords .working program i instrs file).val.2 =
      file ++ wordsToBytes (wordsFrom program i instrs) := by
  obtain ⟨content, ⟨_, all⟩ | ⟨fails, _⟩⟩ := emitWords_val .working program i instrs file
  · rw [content, encodedPrefix_of_all all, writtenBytes_complete fun _ _ => Nat.le_refl 2]
  · cases h.symm.trans fails

theorem rsmEmitBinary_bytes {program : RsmProgram} {old bytes : List Byte}
    (emitted : (rsmEmitBinary .working program old).val = (0, bytes)) :
    bytes = wordsToBytes (wordsFrom program 0 program.instrs.items) := by
  have ok : (emitWords .working program 0 program.instrs.items []).val = (0, bytes) := emitted
  have := emitWords_bytes (congrArg Prod.fst ok)
  rw [ok] at this
  exact this

/-- The emitter succeeds on a working file when every instruction has a word. -/
theorem rsmEmitBinary_of_all {program : RsmProgram}
    (all : AllEncoded program 0 program.instrs.items) (old : List Byte) :
    (rsmEmitBinary .working program old).val =
      (0, wordsToBytes (wordsFrom program 0 program.instrs.items)) := by
  obtain ⟨_, ⟨ok, _⟩ | ⟨_, some_⟩⟩ := emitWords_val .working program 0 program.instrs.items []
  · exact Prod.ext ok (emitWords_bytes ok)
  · exact absurd all some_

/-! ## All or nothing -/

/-- Every instruction has a word, by its operands and the labels that are defined. -/
theorem allEncoded_iff {program : RsmProgram} :
    AllEncoded program 0 program.instrs.items ↔
      ∀ instr ∈ program.instrs.items, HasWord program instr := by
  constructor
  · intro all instr mem
    obtain ⟨j, at_⟩ := List.mem_iff_getElem?.mp mem
    exact not_not.mp (mt (encode_error_iff (0 + j)).mpr (all j instr at_))
  · intro has j instr at_ failed
    exact (encode_error_iff (0 + j)).mp failed (has instr (List.mem_of_getElem? at_))

/-- Emission is all or nothing: on a return code of 0 the file holds the bytes of all the words, and
on -1 it still has its old content. `passed` bytes have left a stream that is not closed by then. -/
structure EmitsAtomically (io : RsmOutput) (program : RsmProgram) (old : List Byte)
    (passed : Nat) : Prop where
  all : (rsmEmitBinary io program old).val.1 = 0 → fileOnReturn io program old passed =
    wordsToBytes (wordsFrom program 0 program.instrs.items)
  nothing : (rsmEmitBinary io program old).val.1 = -1 → fileOnReturn io program old passed = old

section Atomic

variable {io : RsmOutput} {program : RsmProgram} {old : List Byte} {passed : Nat}

/-- A file that cannot be opened is left alone. -/
theorem rsmEmitBinary_refused (refused : io.fopen = false) :
    (rsmEmitBinary io program old).val = (-1, old) := by
  simp only [rsmEmitBinary, refused, Bool.not_false, ↓reduceIte, Traced.val_bind, Traced.val_pure]

theorem emitsAtomically_of_refused (refused : io.fopen = false) :
    EmitsAtomically io program old passed := by
  have result := @rsmEmitBinary_refused io program old refused
  refine ⟨fun ok => ?_, fun _ => ?_⟩
  · rw [result] at ok
    cases ok
  · simp only [fileOnReturn, result, refused, Bool.false_eq_true, false_and, ↓reduceIte]

/-- A file that is opened is emptied and gets the words one after the other. -/
theorem rsmEmitBinary_opened (opened : io.fopen = true) :
    rsmEmitBinary io program old = emitWords io program 0 program.instrs.items [] := by
  simp only [rsmEmitBinary, opened, Bool.not_true, Bool.false_eq_true, ↓reduceIte]

/-- When every instruction has a word, the emitter reports success whatever was written. -/
theorem emitsAtomically_of_all (opened : io.fopen = true)
    (all : AllEncoded program 0 program.instrs.items) :
    EmitsAtomically io program old passed ↔
      ∀ i < program.instrs.items.length, 2 ≤ io.fwrite i := by
  have length := length_wordsFrom program 0 program.instrs.items
  obtain ⟨content, ⟨ok, _⟩ | ⟨_, some_⟩⟩ := emitWords_val io program 0 program.instrs.items []
  · rw [encodedPrefix_of_all all, List.nil_append] at content
    rw [← @rsmEmitBinary_opened io program old opened] at content ok
    have file : fileOnReturn io program old passed =
        writtenBytes io 0 (wordsFrom program 0 program.instrs.items) := by
      rw [fileOnReturn, ok, content, if_neg fun both => absurd both.2 (by decide)]
    constructor
    · intro atomic i hi
      have full := atomic.all ok
      rw [file] at full
      have complete := complete_of_writtenBytes
        (by rw [full, length_wordsToBytes]) i (length.symm ▸ hi)
      rwa [Nat.zero_add] at complete
    · intro complete
      refine ⟨fun _ => ?_, fun fails => ?_⟩
      · rw [file]
        refine writtenBytes_complete fun j hj => ?_
        rw [Nat.zero_add]
        exact complete j (length ▸ hj)
      · rw [ok] at fails
        cases fails
  · exact absurd all some_

/-- When some instruction has no word, what is left does not depend on what the file held, so at
most one old content is kept. -/
theorem emitsAtomically_unique (opened : io.fopen = true)
    (some_ : ¬ AllEncoded program 0 program.instrs.items)
    (atomic : EmitsAtomically io program old passed) :
    old = (emitWords io program 0 program.instrs.items []).val.2.take passed := by
  obtain ⟨_, ⟨_, all⟩ | ⟨fails, _⟩⟩ := emitWords_val io program 0 program.instrs.items []
  · exact absurd all some_
  · rw [← @rsmEmitBinary_opened io program old opened] at fails ⊢
    have kept := atomic.nothing fails
    rw [fileOnReturn, fails, if_pos ⟨opened, rfl⟩] at kept
    exact kept.symm

end Atomic

/-- **When emission is all or nothing**, whatever the file held before: when the file cannot be
opened, or every instruction has a word and every write is complete. Otherwise it is so for one old
content at most. It makes no difference how much of a stream that is not closed is in the file. -/
theorem emission_atomic_iff (io : RsmOutput) (program : RsmProgram) (passed : Nat) :
    ((∀ old, EmitsAtomically io program old passed) ↔ io.fopen = false ∨
      ((∀ instr ∈ program.instrs.items, HasWord program instr) ∧
        ∀ i < program.instrs.items.length, 2 ≤ io.fwrite i)) ∧
    ((∀ old, EmitsAtomically io program old passed) ∨ ∀ old old',
      EmitsAtomically io program old passed → EmitsAtomically io program old' passed →
        old = old') := by
  rw [← allEncoded_iff]
  cases opened : io.fopen with
  | false =>
    have kept : ∀ old, EmitsAtomically io program old passed := fun _ =>
      emitsAtomically_of_refused opened
    exact ⟨iff_of_true kept (.inl rfl), .inl kept⟩
  | true =>
    by_cases all : AllEncoded program 0 program.instrs.items
    · simp only [emitsAtomically_of_all opened all, forall_const, Bool.true_eq_false, all, true_and,
        false_or]
      by_cases complete : ∀ i < program.instrs.items.length, 2 ≤ io.fwrite i
      · exact .inl complete
      · exact .inr fun _ _ kept => absurd kept complete
    · have one : ∀ old old', EmitsAtomically io program old passed →
          EmitsAtomically io program old' passed → old = old' := by
        intro old old' kept kept'
        rw [emitsAtomically_unique opened all kept, emitsAtomically_unique opened all kept']
      simp only [Bool.true_eq_false, all, false_and, or_self, iff_false]
      refine ⟨fun atomic => ?_, .inr one⟩
      cases one [] [0] (atomic _) (atomic _)

/-- The program of the source `JMP 5`: no word encodes its instruction. -/
def jmpProgram : RsmProgram := ⟨⟨[⟨.jmp, .imm 5, .none⟩], 1024, 1024⟩, .create⟩

/-- Its emission fails on a working file, and the file has been emptied. -/
theorem failed_emission_truncates : ¬ ∀ (io : RsmOutput) (program : RsmProgram) (old : List Byte)
    (passed : Nat), EmitsAtomically io program old passed := by
  intro atomic
  have kept := (atomic .working jmpProgram [0x00, 0xF0] 0).nothing (by decide)
  have emptied : fileOnReturn .working jmpProgram [0x00, 0xF0] 0 = [] := by decide
  rw [emptied] at kept
  cases kept

end RocketVm
