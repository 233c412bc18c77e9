import RocketVm.Laws.Image
import RocketVm.Laws.Lines
import RocketVm.Laws.Renaming

/-!
# Images of several texts

The offset of a jump is the distance between two instructions, so it does not change when both move
(`encode_shift`). Two texts in a row are therefore assembled into the image of the first with the
image of the second behind it (`images_join`), provided that no name of one is a label of the other,
that the second has no label in brackets, which is encoded as a place in the whole program, and that
its labels are not moved too far.
-/

namespace RocketVm

open Lib

/-! ## Labels of both parts -/

theorem find?_shift (n : Nat) (name : RsmIdent) (labels : List RsmLabel) :
    (labels.map (RsmLabel.shift n)).find? (fun label => decide (label.name = name)) =
      (labels.find? fun label => decide (label.name = name)).map (RsmLabel.shift n) := by
  rw [List.find?_map]
  rfl

/-- A label of the joined program is the first part's; one that is not there is the second's. -/
theorem Joins.address? {p p' program : RsmProgram} (joins : Joins p p' program) (name : RsmIdent) :
    program.address? name = (p.address? name).or ((p'.address? name).map fun a =>
      BitVec.ofNat 16 (p.instrs.items.length + a.toNat)) := by
  unfold RsmProgram.address?
  rw [joins.labels, List.find?_append, find?_shift]
  cases p.labels.items.find? fun label => decide (label.name = name) with
  | some label => rfl
  | none => cases p'.labels.items.find? fun label => decide (label.name = name) <;> rfl

theorem Joins.address_fits {p p' program : RsmProgram} (joins : Joins p p' program)
    {name : RsmIdent} {a : Word} (defined : p'.address? name = some a) :
    p.instrs.items.length + a.toNat ≤ UINT16_MAX := by
  obtain ⟨label, found, rfl⟩ := Option.map_eq_some_iff.mp defined
  exact joins.fits label (List.mem_of_find?_eq_some found)

/-- Neither part has a label that the other one names, unless the first has it as well. -/
structure Apart (p p' : RsmProgram) : Prop where
  first : ∀ instr ∈ p.instrs.items, ∀ name, instr.Names name →
    (p.address? name).isSome = true ∨ p'.address? name = none
  second : ∀ instr ∈ p'.instrs.items, ∀ name, instr.Names name → p.address? name = none

section Addresses

variable {p p' program : RsmProgram} (joins : Joins p p' program) (apart : Apart p p')
include joins apart

theorem Joins.address_first {instr : RsmInstr} (mem : instr ∈ p.instrs.items) {name : RsmIdent}
    (names : instr.Names name) : program.address? name = p.address? name := by
  rw [joins.address?]
  rcases apart.first instr mem name names with here | missing
  · obtain ⟨a, defined⟩ := Option.isSome_iff_exists.mp here
    rw [defined]
    rfl
  · rw [missing, Option.map_none, Option.or_none]

theorem Joins.address_second {instr : RsmInstr} (mem : instr ∈ p'.instrs.items) {name : RsmIdent}
    (names : instr.Names name) : program.address? name =
      (p'.address? name).map fun a => BitVec.ofNat 16 (p.instrs.items.length + a.toNat) := by
  rw [joins.address?, apart.second instr mem name names, Option.none_or]

end Addresses

/-! ## Instructions further down -/

/-- The instruction has no label in brackets. -/
def RsmInstr.Relative (instr : RsmInstr) : Prop :=
  ∀ name, instr.opr1 ≠ .mem (.label name) ∧ instr.opr2 ≠ .mem (.label name)

theorem intOfSize_mod (n : Nat) : intOfSize n % 65536 = (n : Int) % 65536 := by
  rw [intOfSize, BitVec.toInt_eq_toNat_cond, BitVec.toNat_ofNat]
  split <;> omega

/-- The distance to a label does not change when the instruction and the label move together. -/
theorem distance_shift {n : Nat} {a : Word} (fits : n + a.toNat ≤ UINT16_MAX) (i : Nat) :
    BitVec.ofInt 16 ((((BitVec.ofNat 16 (n + a.toNat)).toNat : Int) - intOfSize (n + i) - 1) * 2) =
      BitVec.ofInt 16 (((a.toNat : Int) - intOfSize i - 1) * 2) := by
  have fits : n + a.toNat ≤ 0xFFFF := fits
  have moved := intOfSize_mod (n + i)
  have before := intOfSize_mod i
  apply BitVec.eq_of_toNat_eq
  rw [BitVec.toNat_ofInt, BitVec.toNat_ofInt, BitVec.toNat_ofNat, Nat.mod_eq_of_lt (by omega)]
  omega

/-- **An instruction further down** has the word it had, when its labels are further down too. -/
theorem encode_shift {program p : RsmProgram} {n : Nat} {instr : RsmInstr}
    (relative : instr.Relative)
    (moved : ∀ name, instr.Names name →
      program.address? name = (p.address? name).map fun a => BitVec.ofNat 16 (n + a.toNat))
    (fits : ∀ name a, p.address? name = some a → n + a.toNat ≤ UINT16_MAX) (i : Nat) :
    (rsmEncodeInstr program instr (n + i)).val = (rsmEncodeInstr p instr i).val := by
  have same : ∀ op r mem, (∀ name, mem ≠ .label name) →
      RsmMem.encoded program op r mem = RsmMem.encoded p op r mem := by
    intro op r mem noLabel
    cases mem with
    | label name => exact absurd rfl (noLabel name)
    | _ => rfl
  have defines : ∀ name, instr.Names name → (program.Defines name ↔ p.Defines name) := by
    intro name names
    rw [defines_iff_isSome, defines_iff_isSome, moved name names, Option.isSome_map]
  by_cases has : HasWord p instr
  · cases has with
    | sourceImm takes => rw [encode_sourceImm _ _ takes, encode_sourceImm _ _ takes]
    | sourceReg takes => rw [encode_sourceReg _ _ takes, encode_sourceReg _ _ takes]
    | load given =>
      rw [encode_load, encode_load, same _ _ _ fun name label => (relative name).2 (label ▸ rfl)]
    | store given =>
      rw [encode_store, encode_store, same _ _ _ fun name label => (relative name).1 (label ▸ rfl)]
    | @toLabel op name opr2 transfers defined =>
      obtain ⟨a, found⟩ := (defines_iff p name).mp defined
      have found' := moved name (.inl (.inl rfl))
      rw [found] at found'
      rw [encode_toLabel _ _ transfers found, encode_toLabel _ _ transfers found',
        distance_shift (fits name a found)]
    | toReg transfers => rw [encode_toReg _ _ transfers, encode_toReg _ _ transfers]
    | ret => rw [encode_ret, encode_ret]
  · have has' : ¬ HasWord program instr := by
      intro has'
      apply has
      cases has' with
      | sourceImm takes => exact .sourceImm takes
      | sourceReg takes => exact .sourceReg takes
      | @load rvd mem given =>
        cases mem with
        | label name => exact absurd rfl (relative name).2
        | none => exact given.elim
        | _ => exact .load trivial
      | @store mem rvs given =>
        cases mem with
        | label name => exact absurd rfl (relative name).1
        | none => exact given.elim
        | _ => exact .store trivial
      | @toLabel op name _ transfers defined =>
        exact .toLabel transfers ((defines name (.inl (.inl rfl))).mp defined)
      | toReg transfers => exact .toReg transfers
      | ret => exact .ret
    rw [encode_missing has', encode_missing has]

/-! ## Words of both parts -/

theorem wordsFrom_append (program : RsmProgram) (i : Nat) (instrs instrs' : List RsmInstr) :
    wordsFrom program i (instrs ++ instrs') =
      wordsFrom program i instrs ++ wordsFrom program (i + instrs.length) instrs' := by
  induction instrs generalizing i with
  | nil => rfl
  | cons instr instrs ih =>
    have count : i + (instr :: instrs).length = i + 1 + instrs.length := by
      rw [List.length_cons]
      omega
    rw [count, List.cons_append, wordsFrom, wordsFrom, ih, List.cons_append]

theorem allEncoded_append {program : RsmProgram} {i : Nat} {instrs instrs' : List RsmInstr} :
    AllEncoded program i (instrs ++ instrs') ↔
      AllEncoded program i instrs ∧ AllEncoded program (i + instrs.length) instrs' := by
  induction instrs generalizing i with
  | nil => exact ⟨fun all => ⟨fun j instr at_ => (by cases at_), all⟩, fun all => all.2⟩
  | cons instr instrs ih =>
    have count : i + (instr :: instrs).length = i + 1 + instrs.length := by
      rw [List.length_cons]
      omega
    rw [count, List.cons_append, allEncoded_cons, allEncoded_cons, ih, and_assoc]

/-- Instructions with the same codes in two programs have the same words there. -/
theorem words_congr {program program' : RsmProgram} {i i' : Nat} {instrs : List RsmInstr}
    (same : ∀ instr ∈ instrs, ∀ j, (rsmEncodeInstr program instr (i + j)).val =
      (rsmEncodeInstr program' instr (i' + j)).val) :
    wordsFrom program i instrs = wordsFrom program' i' instrs ∧
      (AllEncoded program i instrs ↔ AllEncoded program' i' instrs) := by
  constructor
  · apply List.ext_getElem?
    intro j
    cases at_ : instrs[j]? with
    | none =>
      have outside := List.getElem?_eq_none_iff.mp at_
      rw [List.getElem?_eq_none (by rwa [length_wordsFrom]),
        List.getElem?_eq_none (by rwa [length_wordsFrom])]
    | some instr =>
      rw [getElem?_wordsFrom program at_, getElem?_wordsFrom program' at_,
        same instr (List.mem_of_getElem? at_)]
  · refine forall_congr' fun j => forall_congr' fun instr => forall_congr' fun at_ => ?_
    rw [same instr (List.mem_of_getElem? at_)]

/-- Emission on a working file succeeds exactly when every instruction has a word. -/
theorem rsmEmitBinary_iff {program : RsmProgram} {old bytes : List Byte} :
    (rsmEmitBinary .working program old).val = (0, bytes) ↔
      AllEncoded program 0 program.instrs.items ∧
        bytes = wordsToBytes (wordsFrom program 0 program.instrs.items) := by
  constructor
  · intro emitted
    refine ⟨?_, rsmEmitBinary_bytes emitted⟩
    have ok : (emitWords .working program 0 program.instrs.items []).val = (0, bytes) := emitted
    obtain ⟨_, ⟨_, all⟩ | ⟨fails, _⟩⟩ := emitWords_val .working program 0 program.instrs.items []
    · exact all
    · rw [ok] at fails
      cases fails
  · rintro ⟨all, rfl⟩
    exact rsmEmitBinary_of_all all old

/-! ## The joined program -/

section Joined

variable {p p' program : RsmProgram} (joins : Joins p p' program) (apart : Apart p p')
include joins apart

/-- The joined program resolves exactly when both parts do. -/
theorem Joins.resolves : (rsmResolveLabels program).val = 0 ↔
    (rsmResolveLabels p).val = 0 ∧ (rsmResolveLabels p').val = 0 := by
  have undefined : ∀ {q : RsmProgram} {opr : RsmOperand},
      (∀ name, opr.Names name →
        ((program.address? name).isSome = true ↔ (q.address? name).isSome = true)) →
      (labelUndefined program opr = false ↔ labelUndefined q opr = false) := by
    intro q opr same
    cases opr with
    | label name =>
      rw [labelUndefined_label, labelUndefined_label]
      exact same name (.inl rfl)
    | _ => exact Iff.rfl
  simp only [rsmResolveLabels, resolveLabels_zero, joins.instrs, List.forall_mem_append]
  refine and_congr ?_ ?_
  · refine forall_congr' fun instr => forall_congr' fun mem => and_congr ?_ ?_
    · exact undefined fun name names => by rw [joins.address_first apart mem (.inl names)]
    · exact undefined fun name names => by rw [joins.address_first apart mem (.inr names)]
  · refine forall_congr' fun instr => forall_congr' fun mem => and_congr ?_ ?_
    · exact undefined fun name names => by
        rw [joins.address_second apart mem (.inl names), Option.isSome_map]
    · exact undefined fun name names => by
        rw [joins.address_second apart mem (.inr names), Option.isSome_map]

/-- The joined program is emitted exactly when both parts are, and its image is theirs in a row. -/
theorem Joins.emits (relative : ∀ instr ∈ p'.instrs.items, instr.Relative) (old bytes : List Byte) :
    (rsmEmitBinary .working program old).val = (0, bytes) ↔
      ∃ image image', (rsmEmitBinary .working p old).val = (0, image) ∧
        (rsmEmitBinary .working p' old).val = (0, image') ∧ bytes = image ++ image' := by
  have first := @words_congr program p 0 0 p.instrs.items
    fun instr mem j => encode_congr
      (fun name names => joins.address_first apart mem names) (0 + j)
  have second := @words_congr program p' p.instrs.items.length 0 p'.instrs.items
    fun instr mem j => by
      rw [Nat.zero_add]
      exact encode_shift (relative instr mem)
        (fun name names => joins.address_second apart mem names)
        (fun name a defined => joins.address_fits defined) j
  have whole : AllEncoded program 0 program.instrs.items ↔
      AllEncoded p 0 p.instrs.items ∧ AllEncoded p' 0 p'.instrs.items := by
    rw [joins.instrs, allEncoded_append, Nat.zero_add, first.2, second.2]
  have image : wordsToBytes (wordsFrom program 0 program.instrs.items) =
      wordsToBytes (wordsFrom p 0 p.instrs.items) ++
        wordsToBytes (wordsFrom p' 0 p'.instrs.items) := by
    rw [joins.instrs, wordsFrom_append, Nat.zero_add, first.1, second.1]
    exact List.flatMap_append
  simp only [rsmEmitBinary_iff, whole, image]
  constructor
  · rintro ⟨⟨all, all'⟩, rfl⟩
    exact ⟨_, _, ⟨all, rfl⟩, ⟨all', rfl⟩, rfl⟩
  · rintro ⟨_, _, ⟨all, rfl⟩, ⟨all', rfl⟩, rfl⟩
    exact ⟨⟨all, all'⟩, rfl⟩

end Joined

/-- A text parses to one program. -/
theorem Parses.unique {realloc : Nat → Bool} {src : List Byte} {program program' : RsmProgram}
    (parses : Parses realloc src program) (parses' : Parses realloc src program') :
    program = program' :=
  (Prod.mk.inj (Option.some.inj (parses.symm.trans parses'))).2

/-- A text is assembled: it parses, the labels of the program resolve, and emitting it on a working
file leaves the image. -/
structure Assembles (text : List Byte) (program : RsmProgram) (image : List Byte) : Prop where
  parses : Parses (fun _ => true) text program
  resolves : (rsmResolveLabels program).val = 0
  emits : ∀ old, (rsmEmitBinary .working program old).val = (0, image)

/-- **Assembled in a row.** Take two texts such that no name in an operand of the second is a label
of the first, none in an operand of the first is a label of the second unless the first has it too,
and the second has no label in brackets. With a newline between them they are assembled exactly when
each of them is and no label of the second is moved behind the last address that a label can have;
the image is that of the first and then that of the second. -/
theorem images_join {text text' : List Byte}
    (apart : ∀ p p', Parses (fun _ => true) text p → Parses (fun _ => true) text' p' → Apart p p')
    (relative : ∀ p', Parses (fun _ => true) text' p' → ∀ instr ∈ p'.instrs.items, instr.Relative)
    (image : List Byte) :
    (∃ program, Assembles (text ++ chr '\n' :: text') program image) ↔
      ∃ p p' first second, Assembles text p first ∧ Assembles text' p' second ∧
        (∀ label ∈ p'.labels.items,
          p.instrs.items.length + label.address.toNat ≤ UINT16_MAX) ∧
        image = first ++ second := by
  constructor
  · rintro ⟨program, parses, resolves, emits⟩
    obtain ⟨p, p', parses₁, parses₂, joins⟩ := (sources_join text text').1 program parses
    have parts := apart p p' parses₁ parses₂
    obtain ⟨resolves₁, resolves₂⟩ := (joins.resolves parts).mp resolves
    obtain ⟨first, second, emits₁, emits₂, same⟩ :=
      (joins.emits parts (relative p' parses₂) [] image).mp (emits [])
    exact ⟨p, p', first, second,
      ⟨parses₁, resolves₁, fun _ => rsmEmitBinary_iff.mpr (rsmEmitBinary_iff.mp emits₁)⟩,
      ⟨parses₂, resolves₂, fun _ => rsmEmitBinary_iff.mpr (rsmEmitBinary_iff.mp emits₂)⟩,
      joins.fits, same⟩
  · rintro ⟨p, p', first, second, one, two, fits, rfl⟩
    obtain ⟨program, parses, joins⟩ := one.parses.join two.parses fits
    have parts := apart p p' one.parses two.parses
    refine ⟨program, parses, (joins.resolves parts).mpr ⟨one.resolves, two.resolves⟩, fun old => ?_⟩
    exact (joins.emits parts (relative p' two.parses) old _).mpr
      ⟨first, second, one.emits old, two.emits old, rfl⟩

/-- Both loops in a row. -/
theorem images_join_loops : ∃ program,
    Assembles (loopSource ++ chr '\n' :: renamedLoopSource) program [0xFE, 0xB7, 0xFE, 0xB7] := by
  refine (images_join (fun p p' parses parses' => ?_) (fun p' parses' => ?_) _).mpr
    ⟨_, _, [0xFE, 0xB7], [0xFE, 0xB7], ⟨loop_parses, by decide, fun _ => by rfl⟩,
      ⟨renamedLoop_parses, by decide, fun _ => by rfl⟩, by decide, rfl⟩
  · obtain rfl := loop_parses.unique parses
    obtain rfl := renamedLoop_parses.unique parses'
    refine ⟨?_, ?_⟩ <;>
      rintro instr (_ | ⟨_, ⟨⟩⟩) name ((⟨⟨⟩⟩ | none) | (none | none))
    · exact .inl rfl
    · cases none
    · cases none
    · cases none
    · rfl
    · cases none
    · cases none
    · cases none
  · obtain rfl := renamedLoop_parses.unique parses'
    rintro instr (_ | ⟨_, ⟨⟩⟩) name
    exact ⟨RsmOperand.noConfusion, RsmOperand.noConfusion⟩

end RocketVm
