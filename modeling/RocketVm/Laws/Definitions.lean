import RocketVm.Laws.Grammar
import Mathlib.Data.List.Find

/-!
# Label definitions

The assembler does not look for labels that are defined twice. A name stands for its first
definition in the text, and only where the text defines no name twice does the lookup not depend
on the order of the table.
-/

namespace RocketVm

open Lib

def RsmItem.label? : RsmItem → Option RsmIdent
  | .label name => some name
  | .instr _ => none

/-- The names that are defined, with repetitions, in the order of the definitions. -/
def definedNames (items : List RsmItem) : List RsmIdent := items.filterMap RsmItem.label?

theorem labelsOf_names (n : Nat) (items : List RsmItem) :
    (labelsOf n items).map RsmLabel.name = definedNames items := by
  induction items generalizing n with
  | nil => rfl
  | cons item items ih =>
    cases item with
    | label name => exact congrArg (List.cons name) (ih n)
    | instr instr => exact ih (n + 1)

/-- The table of a parsed program names what the text defines. -/
theorem Extends.names {items : List RsmItem} {program : RsmProgram}
    (built : Extends rsmProgramCreate items program) :
    program.labels.items.map RsmLabel.name = definedNames items := by
  rw [built.labels]
  exact labelsOf_names 0 items

/-- The first definition of a name is found. -/
theorem Extends.address? {before after : List RsmItem} {name : RsmIdent} {program : RsmProgram}
    (built : Extends rsmProgramCreate (before ++ .label name :: after) program)
    (first : name ∉ definedNames before) :
    program.address? name = some (BitVec.ofNat 16 (instrsOf before).length) := by
  have skipped : (labelsOf 0 before).find? (fun label => decide (label.name = name)) = none := by
    rw [List.find?_eq_none]
    intro label mem same
    rw [decide_eq_true_eq] at same
    rw [← labelsOf_names 0 before, ← same] at first
    exact first (List.mem_map_of_mem mem)
  have table : program.labels.items = labelsOf 0 before ++
      ⟨name, BitVec.ofNat 16 (instrsOf before).length⟩ ::
        labelsOf (instrsOf before).length after := by
    rw [built.labels]
    show labelsOf 0 _ = _
    rw [labelsOf_append, Nat.zero_add]
    rfl
  rw [RsmProgram.address?, table, List.find?_append, skipped, Option.none_or, List.find?_cons,
    decide_eq_true rfl]
  rfl

/-- In a table of different names the lookup does not depend on the order. -/
theorem findLabelAddress_perm {table table' : List RsmLabel} (name : RsmIdent)
    (different : (table.map RsmLabel.name).Nodup) (perm : table.Perm table') :
    findLabelAddress name table' = findLabelAddress name table := by
  have once : {label ∈ table | decide (label.name = name) = true}.Subsingleton := by
    rintro label ⟨mem, same⟩ label' ⟨mem', same'⟩
    refine List.inj_on_of_nodup_map different mem mem' ?_
    rw [of_decide_eq_true same, of_decide_eq_true same']
  rw [findLabelAddress_eq, findLabelAddress_eq, List.find?_eq_find?_of_perm perm once]

/-- A name that is found is defined. -/
theorem Extends.defined {items : List RsmItem} {name : RsmIdent} {program : RsmProgram}
    (built : Extends rsmProgramCreate items program)
    (found : (program.address? name).isSome = true) : name ∈ definedNames items := by
  rw [RsmProgram.address?, Option.isSome_map, List.find?_isSome] at found
  obtain ⟨label, mem, same⟩ := found
  rw [← built.names, ← of_decide_eq_true same]
  exact List.mem_map_of_mem mem

/-- **Label definitions.** In a text that is parsed and resolved, every name that is an operand is
defined (a name in brackets need not be), and the lookup gives the number of the instructions before
the first definition. Where no name is defined twice, the names of the table are pairwise different,
and the lookup does not depend on the order of the table. -/
theorem labels_first_definition {realloc : Nat → Bool} {src : List Byte} {program : RsmProgram}
    (parsed : Parses realloc src program) (resolved : (rsmResolveLabels program).val = 0) :
    ∃ items, Sentence Accepted (sourceTokens src) items ∧
      (∀ before name after, items = before ++ .label name :: after → name ∉ definedNames before →
        rsmProgramFindLabelAddress program name = (instrsOf before).length) ∧
      (∀ instr ∈ instrsOf items, ∀ name, instr.opr1 = .label name ∨ instr.opr2 = .label name →
        name ∈ definedNames items) ∧
      ((definedNames items).Nodup →
        (program.labels.items.map fun label => label.name.bytes).Nodup ∧
        ∀ table : List RsmLabel, program.labels.items.Perm table →
          ∀ name, findLabelAddress name table = rsmProgramFindLabelAddress program name) := by
  obtain ⟨items, sentence, built⟩ := parsed.sentence
  have names := built.names
  refine ⟨items, sentence, ?_, ?_, ?_⟩
  · intro before name after split first
    subst split
    have fits : 0 + (instrsOf before).length ≤ 0xFFFF := built.fits before name after rfl
    rw [rsmProgramFindLabelAddress_some (built.address? first), BitVec.toNat_ofNat,
      Nat.mod_eq_of_lt (by omega)]
  · intro instr mem name uses
    have mem : instr ∈ program.instrs.items := by
      rw [built.instrs]
      exact mem
    obtain ⟨defined1, defined2⟩ := resolveLabels_zero.mp resolved instr mem
    rcases uses with first | second
    · rw [first, labelUndefined_label] at defined1
      exact built.defined defined1
    · rw [second, labelUndefined_label] at defined2
      exact built.defined defined2
  · intro different
    rw [← names] at different
    refine ⟨?_, fun table perm name => findLabelAddress_perm name different perm⟩
    have bytes := different.map RsmIdent.bytes_injective
    rw [List.map_map] at bytes
    exact bytes

/-- The source `a:JMP b`, newline, `b:JMP a`. -/
def crossSource : List Byte :=
  ['a', ':', 'J', 'M', 'P', ' ', 'b', '\n', 'b', ':', 'J', 'M', 'P', ' ', 'a'].map chr

def crossProgram : RsmProgram :=
  { instrs := ⟨[⟨.jmp, .label labelB, .none⟩, ⟨.jmp, .label labelA, .none⟩], 1024, 1024⟩
    labels := ⟨[⟨labelA, 0⟩, ⟨labelB, 1⟩], 1024, 1024⟩ }

theorem labels_first_definition_cross :
    ∃ items, Sentence Accepted (sourceTokens crossSource) items ∧
      (∀ before name after, items = before ++ .label name :: after → name ∉ definedNames before →
        rsmProgramFindLabelAddress crossProgram name = (instrsOf before).length) ∧
      (∀ instr ∈ instrsOf items, ∀ name, instr.opr1 = .label name ∨ instr.opr2 = .label name →
        name ∈ definedNames items) ∧
      ((definedNames items).Nodup →
        (crossProgram.labels.items.map fun label => label.name.bytes).Nodup ∧
        ∀ table : List RsmLabel, crossProgram.labels.items.Perm table →
          ∀ name, findLabelAddress name table = rsmProgramFindLabelAddress crossProgram name) :=
  @labels_first_definition (fun _ => true) crossSource crossProgram
    (by unfold Parses; decide) (by decide)

/-- The source `a:RET`, newline, `a:JMP a`. -/
def twoLabelsSource : List Byte :=
  ['a', ':', 'R', 'E', 'T', '\n', 'a', ':', 'J', 'M', 'P', ' ', 'a'].map chr

def twoLabelsProgram : RsmProgram :=
  { instrs := ⟨[⟨.ret, .none, .none⟩, ⟨.jmp, .label labelA, .none⟩], 1024, 1024⟩
    labels := ⟨[⟨labelA, 0⟩, ⟨labelA, 1⟩], 1024, 1024⟩ }

/-- A name that is defined twice is accepted, and which definition a lookup finds depends on the
order of the table. -/
theorem two_definitions_accepted : ∃ program, Parses (fun _ => true) twoLabelsSource program ∧
    (rsmResolveLabels program).val = 0 ∧
    ¬ (program.labels.items.map fun label => label.name.bytes).Nodup ∧
    ∃ name, rsmProgramFindLabelAddress program name = 0 ∧
      findLabelAddress name program.labels.items.reverse = 1 := by
  refine ⟨twoLabelsProgram, ?_, by decide, by decide, labelA, ?_, ?_⟩
  · unfold Parses
    decide
  · decide
  · decide

end RocketVm
