import RocketVm.Laws.Image
import RocketVm.Laws.Lines
import Mathlib.Data.Set.Function

/-!
# Renaming labels

The assembler uses the name of a label to find its address, and otherwise only in reports. An
instruction is encoded from the addresses of the names in it (`encode_rename`), so a source in which
the labels are renamed, different ones differently, is parsed, resolved and emitted as before, and
the reports on the way are about the new names (`renaming_keeps_image`).
-/

namespace RocketVm

open Lib Traced

/-! ## Renamed -/

section Rename

def RsmMem.rename (f : RsmIdent → RsmIdent) : RsmMem → RsmMem
  | .none => .none
  | .imm v => .imm v
  | .reg r => .reg r
  | .label name => .label (f name)

def RsmOperand.rename (f : RsmIdent → RsmIdent) : RsmOperand → RsmOperand
  | .none => .none
  | .imm v => .imm v
  | .reg r => .reg r
  | .label name => .label (f name)
  | .mem m => .mem (m.rename f)

def RsmInstr.rename (f : RsmIdent → RsmIdent) (instr : RsmInstr) : RsmInstr :=
  ⟨instr.opcode, instr.opr1.rename f, instr.opr2.rename f⟩

def RsmLabel.rename (f : RsmIdent → RsmIdent) (label : RsmLabel) : RsmLabel :=
  ⟨f label.name, label.address⟩

def RsmItem.rename (f : RsmIdent → RsmIdent) : RsmItem → RsmItem
  | .label name => .label (f name)
  | .instr i => .instr (i.rename f)

def RsmTokenType.rename (f : RsmIdent → RsmIdent) : RsmTokenType → RsmTokenType
  | .ident name => .ident (f name)
  | t => t

/-- The arguments of a report, with another name in the place of one that was passed for `%*.s`, in
either order. -/
def renameArgs (f : RsmIdent → RsmIdent) : List RsmArg → List RsmArg
  | [.size n, .chars bytes] =>
    if h : bytes.all isIdentChar = true then (f ⟨bytes, h⟩).args else [.size n, .chars bytes]
  | [.chars bytes, .size n] =>
    if h : bytes.all isIdentChar = true then (f ⟨bytes, h⟩).args.reverse
    else [.chars bytes, .size n]
  | args => args

def RsmEvent.rename (f : RsmIdent → RsmIdent) : RsmEvent → RsmEvent
  | .info format args => .info format (renameArgs f args)
  | .error format args => .error format (renameArgs f args)
  | e => e

theorem renameArgs_args (f : RsmIdent → RsmIdent) (name : RsmIdent) :
    renameArgs f name.args = (f name).args := dif_pos name.chars

theorem renameArgs_reverse (f : RsmIdent → RsmIdent) (name : RsmIdent) :
    renameArgs f name.args.reverse = (f name).args.reverse := dif_pos name.chars

end Rename

/-- The instruction names a label, in an operand or between brackets. -/
def RsmInstr.Names (instr : RsmInstr) (name : RsmIdent) : Prop :=
  instr.opr1.Names name ∨ instr.opr2.Names name

section Lookup

variable {f : RsmIdent → RsmIdent} {program program' : RsmProgram}

theorem rsmProgramFindLabelAddress_rename {name : RsmIdent}
    (same : program'.address? (f name) = program.address? name) :
    rsmProgramFindLabelAddress program' (f name) = rsmProgramFindLabelAddress program name := by
  rw [rsmProgramFindLabelAddress_eq, rsmProgramFindLabelAddress_eq, same]

theorem renameArgs_labelArgs (opr : RsmOperand) :
    renameArgs f opr.labelArgs = (opr.rename f).labelArgs := by
  cases opr with
  | label name => exact renameArgs_args f name
  | _ => rfl

theorem labelUndefined_rename {opr : RsmOperand}
    (same : ∀ name, opr.Names name → program'.address? (f name) = program.address? name) :
    labelUndefined program' (opr.rename f) = labelUndefined program opr := by
  cases opr with
  | label name =>
    show decide (rsmProgramFindLabelAddress program' (f name) < 0) = _
    rw [rsmProgramFindLabelAddress_rename (same name (.inl rfl))]
    rfl
  | _ => rfl

/-! ## One instruction -/

theorem encodeSource_rename (imm : RvmReg → Byte → Word) (reg : RvmReg → RvmReg → Word)
    (opr1 opr2 : RsmOperand) :
    encodeSource imm reg (opr1.rename f) (opr2.rename f) = encodeSource imm reg opr1 opr2 := by
  cases opr1 <;> cases opr2 <;> rfl

theorem encodeMem_rename (addrOf : RvmReg → Byte → Word) (regOf : RvmReg → RvmReg → Word)
    (r : RvmReg) {mem : RsmMem}
    (same : ∀ name, mem = .label name → program'.address? (f name) = program.address? name) :
    encodeMem addrOf regOf program' r (mem.rename f) =
      (encodeMem addrOf regOf program r mem).mapEvents (RsmEvent.rename f) := by
  cases mem with
  | label name =>
    simp only [RsmMem.rename, encodeMem, rsmProgramFindLabelAddress_rename (same name rfl)]
    split
    · rw [mapEvents_bind, mapEvents_emit, RsmEvent.rename, renameArgs_reverse]
      rfl
    · rfl
  | _ => rfl

theorem rsmResolveLabel_rename {name : RsmIdent}
    (same : program'.address? (f name) = program.address? name) (i : Nat) :
    rsmResolveLabel program' (f name) i =
      (rsmResolveLabel program name i).mapEvents (RsmEvent.rename f) := by
  simp only [rsmResolveLabel, rsmProgramFindLabelAddress_rename same]
  split
  · rw [mapEvents_bind, mapEvents_emit, RsmEvent.rename, renameArgs_args]
    rfl
  · rfl

theorem encodeTarget_rename {imm : Word → Traced RsmEvent Word} (reg : RvmReg → Word) (i : Nat)
    {opr : RsmOperand} (nameless : ∀ w, (imm w).mapEvents (RsmEvent.rename f) = imm w)
    (same : ∀ name, opr.Names name → program'.address? (f name) = program.address? name) :
    encodeTarget imm reg program' i (opr.rename f) =
      (encodeTarget imm reg program i opr).mapEvents (RsmEvent.rename f) := by
  cases opr with
  | label name =>
    simp only [RsmOperand.rename, encodeTarget, rsmResolveLabel_rename (same name (.inl rfl)),
      mapEvents_bind]
    refine congrArg _ (funext fun simm => ?_)
    split
    · rfl
    · rw [mapEvents_bind, nameless]
      rfl
  | _ => rfl

/-- **An instruction is encoded from the addresses of its labels**, whatever their names. -/
theorem encode_rename {instr : RsmInstr}
    (same : ∀ name, instr.Names name → program'.address? (f name) = program.address? name)
    (i : Nat) :
    rsmEncodeInstr program' (instr.rename f) i =
      (rsmEncodeInstr program instr i).mapEvents (RsmEvent.rename f) := by
  obtain ⟨op, opr1, opr2⟩ := instr
  have first : ∀ name, opr1.Names name → program'.address? (f name) = program.address? name :=
    fun name names => same name (.inl names)
  have second : ∀ name, opr2.Names name → program'.address? (f name) = program.address? name :=
    fun name names => same name (.inr names)
  have opcode : encodeOpcode program' (RsmInstr.rename f ⟨op, opr1, opr2⟩) i =
      (encodeOpcode program ⟨op, opr1, opr2⟩ i).mapEvents (RsmEvent.rename f) := by
    cases op with
    | mov | add | sub | mul | div | mod | shl | shr | cmp =>
      exact congrArg pure (encodeSource_rename _ _ opr1 opr2)
    | load =>
      cases opr1 with
      | reg rvd =>
        cases opr2 with
        | mem mem =>
          exact encodeMem_rename _ _ rvd fun name here => second name (.inr (congrArg _ here))
        | _ => rfl
      | _ => rfl
    | store =>
      cases opr1 with
      | mem mem =>
        cases opr2 with
        | reg rvs =>
          exact encodeMem_rename _ _ rvs fun name here => first name (.inr (congrArg _ here))
        | _ => rfl
      | _ => rfl
    | jmp | jz | jnz | call => exact encodeTarget_rename _ i (fun _ => rfl) first
    | ret => rfl
  unfold rsmEncodeInstr
  rw [opcode, mapEvents_bind]
  refine congrArg _ (funext fun encoded => ?_)
  cases encoded <;> rfl

end Lookup

/-- An instruction has the same code in two programs that agree on its labels. -/
theorem encode_congr {program program' : RsmProgram} {instr : RsmInstr}
    (same : ∀ name, instr.Names name → program'.address? name = program.address? name) (i : Nat) :
    (rsmEncodeInstr program' instr i).val = (rsmEncodeInstr program instr i).val := by
  have keep : instr.rename id = instr := by
    rcases instr with
      ⟨op, _ | _ | _ | _ | (_ | _ | _ | _), _ | _ | _ | _ | (_ | _ | _ | _)⟩ <;> rfl
  conv_lhs => rw [← keep]
  rw [encode_rename (f := id) same, val_mapEvents]

/-! ## Programs -/

/-- The program with its labels renamed, different ones differently. -/
structure Renames (f : RsmIdent → RsmIdent) (program program' : RsmProgram) : Prop where
  instrs : program'.instrs.items = program.instrs.items.map (RsmInstr.rename f)
  labels : program'.labels.items = program.labels.items.map (RsmLabel.rename f)
  apart : ∀ label ∈ program.labels.items, ∀ instr ∈ program.instrs.items, ∀ name,
    instr.Names name → f label.name = f name → label.name = name

section Program

variable {f : RsmIdent → RsmIdent} {program program' : RsmProgram}

theorem find?_rename {labels : List RsmLabel} {name : RsmIdent}
    (apart : ∀ label ∈ labels, f label.name = f name → label.name = name) :
    (labels.map (RsmLabel.rename f)).find? (fun label => decide (label.name = f name)) =
      (labels.find? fun label => decide (label.name = name)).map (RsmLabel.rename f) := by
  induction labels with
  | nil => rfl
  | cons label labels ih =>
    have rest := ih fun label' mem => apart label' (List.mem_cons_of_mem _ mem)
    have test : decide ((label.rename f).name = f name) = decide (label.name = name) :=
      decide_eq_decide.mpr ⟨apart label List.mem_cons_self, congrArg f⟩
    rw [List.map_cons, List.find?_cons, List.find?_cons, test, rest]
    cases decide (label.name = name) <;> rfl

theorem Renames.address? (h : Renames f program program') {instr : RsmInstr}
    (mem : instr ∈ program.instrs.items) {name : RsmIdent} (names : instr.Names name) :
    program'.address? (f name) = program.address? name := by
  unfold RsmProgram.address?
  rw [h.labels, find?_rename fun label inside => h.apart label inside instr mem name names,
    Option.map_map]
  rfl

theorem resolveLabels_rename {instrs : List RsmInstr}
    (same : ∀ instr ∈ instrs, ∀ name, instr.Names name →
      program'.address? (f name) = program.address? name) :
    resolveLabels program' (instrs.map (RsmInstr.rename f)) =
      (resolveLabels program instrs).mapEvents (RsmEvent.rename f) := by
  induction instrs with
  | nil => rfl
  | cons instr instrs ih =>
    have here := same instr List.mem_cons_self
    have rest := ih fun instr' mem => same instr' (List.mem_cons_of_mem _ mem)
    have first : labelUndefined program' (instr.rename f).opr1 =
        labelUndefined program instr.opr1 :=
      labelUndefined_rename fun name names => here name (.inl names)
    have second : labelUndefined program' (instr.rename f).opr2 =
        labelUndefined program instr.opr2 :=
      labelUndefined_rename fun name names => here name (.inr names)
    rw [List.map_cons, resolveLabels, resolveLabels, first, second, rest]
    split
    · rw [mapEvents_bind, mapEvents_emit, RsmEvent.rename, renameArgs_labelArgs]
      rfl
    · split
      · rw [mapEvents_bind, mapEvents_emit, RsmEvent.rename, renameArgs_labelArgs]
        rfl
      · rfl

theorem emitWords_rename {io : RsmOutput} {i : Nat} {instrs : List RsmInstr} {file : List Byte}
    (same : ∀ instr ∈ instrs, ∀ name, instr.Names name →
      program'.address? (f name) = program.address? name) :
    emitWords io program' i (instrs.map (RsmInstr.rename f)) file =
      (emitWords io program i instrs file).mapEvents (RsmEvent.rename f) := by
  induction instrs generalizing i file with
  | nil => rfl
  | cons instr instrs ih =>
    have rest : ∀ file, emitWords io program' (i + 1) (instrs.map (RsmInstr.rename f)) file =
        (emitWords io program (i + 1) instrs file).mapEvents (RsmEvent.rename f) := fun file =>
      ih fun instr' mem => same instr' (List.mem_cons_of_mem _ mem)
    rw [List.map_cons, emitWords, emitWords, encode_rename (same instr List.mem_cons_self),
      mapEvents_bind]
    refine congrArg _ (funext fun encoded => ?_)
    split
    · rfl
    · exact rest _

/-- The phases behind the parser do to a renamed program what they do to the program. -/
theorem Renames.phases (h : Renames f program program') :
    rsmResolveLabels program' = (rsmResolveLabels program).mapEvents (RsmEvent.rename f) ∧
      ∀ io old, rsmEmitBinary io program' old =
        (rsmEmitBinary io program old).mapEvents (RsmEvent.rename f) := by
  have same : ∀ instr ∈ program.instrs.items, ∀ name, instr.Names name →
      program'.address? (f name) = program.address? name :=
    fun instr mem name names => h.address? mem names
  constructor
  · rw [rsmResolveLabels, h.instrs, resolveLabels_rename same]
    rfl
  · intro io old
    rw [rsmEmitBinary, rsmEmitBinary, h.instrs, emitWords_rename same]
    split <;> rfl

end Program

/-! ## Sources -/

section Source

variable {f : RsmIdent → RsmIdent}

theorem RsmOperand.tokens_rename (opr : RsmOperand) :
    (opr.rename f).tokens = opr.tokens.map (RsmTokenType.rename f) := by
  rcases opr with _ | v | r | name | (_ | v | r | name) <;> rfl

theorem RsmOperand.rename_eq_none (opr : RsmOperand) : opr.rename f = .none ↔ opr = .none := by
  cases opr <;> simp [RsmOperand.rename]

theorem RsmInstr.tokens_rename (instr : RsmInstr) :
    (instr.rename f).tokens = instr.tokens.map (RsmTokenType.rename f) := by
  have operands : operandTokens (instr.opr1.rename f) (instr.opr2.rename f) =
      (operandTokens instr.opr1 instr.opr2).map (RsmTokenType.rename f) := by
    unfold operandTokens
    simp only [RsmOperand.rename_eq_none, RsmOperand.tokens_rename]
    split
    · rfl
    · rw [List.map_append, List.map_cons]
      rfl
  rw [RsmInstr.tokens, RsmInstr.tokens, List.map_cons]
  exact congrArg (List.cons _) operands

theorem operandError_rename (instr : RsmInstr) :
    operandError (instr.rename f) = operandError instr := by
  obtain ⟨op, opr1, opr2⟩ := instr
  cases opr1 <;> cases opr2 <;> cases op <;> rfl

theorem Accepted.rename {instr : RsmInstr} (h : Accepted instr) : Accepted (instr.rename f) := by
  have given : ∀ opr : RsmOperand, opr ≠ .mem .none → opr.rename f ≠ .mem .none := by
    rintro (_ | v | r | name | (_ | v | r | name)) other <;>
      simp_all [RsmOperand.rename, RsmMem.rename]
  exact ⟨(operandError_rename instr).trans h.check, given _ h.mem1, given _ h.mem2⟩

theorem LineEnds.rename {ts : List RsmTokenType} (ends : LineEnds ts) :
    LineEnds (ts.map (RsmTokenType.rename f)) := by
  rcases ends with rfl | ⟨rest, rfl⟩
  · exact .inl rfl
  · exact .inr ⟨_, rfl⟩

theorem Sentence.rename {ts : List RsmTokenType} {items : List RsmItem}
    (h : Sentence Accepted ts items) :
    Sentence Accepted (ts.map (RsmTokenType.rename f)) (items.map (RsmItem.rename f)) := by
  induction h with
  | done => exact .done
  | newline _ ih => exact .newline ih
  | label name _ ih => exact .label (f name) ih
  | instr ok ends _ ih =>
    rw [List.map_append, ← RsmInstr.tokens_rename]
    exact .instr ok.rename ends.rename ih

theorem instrsOf_rename (items : List RsmItem) :
    instrsOf (items.map (RsmItem.rename f)) = (instrsOf items).map (RsmInstr.rename f) := by
  induction items with
  | nil => rfl
  | cons item items ih =>
    cases item with
    | label name => exact ih
    | instr instr => exact congrArg (List.cons _) ih

theorem labelsOf_rename (n : Nat) (items : List RsmItem) :
    labelsOf n (items.map (RsmItem.rename f)) = (labelsOf n items).map (RsmLabel.rename f) := by
  induction items generalizing n with
  | nil => rfl
  | cons item items ih =>
    cases item with
    | label name => exact congrArg (List.cons _) (ih n)
    | instr instr => exact ih (n + 1)

theorem LabelsFit.rename {n : Nat} {items : List RsmItem} (fits : LabelsFit n items) :
    LabelsFit n (items.map (RsmItem.rename f)) := by
  intro before name after split
  obtain ⟨before', rest, rfl, rfl, there⟩ := List.map_eq_append_iff.mp split
  obtain ⟨item, after', rfl, here, rfl⟩ := List.map_eq_cons_iff.mp there
  cases item with
  | instr instr => cases here
  | label name' =>
    rw [instrsOf_rename, List.length_map]
    exact fits before' name' after' rfl

/-- The tokens of an instruction are among those of its sentence. -/
theorem Sentence.tokens_mem {valid : RsmInstr → Prop} {ts : List RsmTokenType}
    {items : List RsmItem} (h : Sentence valid ts items) {instr : RsmInstr}
    (used : instr ∈ instrsOf items) {t : RsmTokenType} (inside : t ∈ instr.tokens) : t ∈ ts := by
  induction h with
  | done => cases used
  | newline _ ih => exact List.mem_cons_of_mem _ (ih used)
  | label name _ ih => exact List.mem_cons_of_mem _ (List.mem_cons_of_mem _ (ih used))
  | instr _ _ _ ih =>
    rcases List.mem_cons.mp used with rfl | used
    · exact List.mem_append_left _ inside
    · exact List.mem_append_right _ (ih used)

theorem Sentence.label_mem {valid : RsmInstr → Prop} {ts : List RsmTokenType}
    {items : List RsmItem} (h : Sentence valid ts items) {name : RsmIdent}
    (defined : .label name ∈ items) : .ident name ∈ ts := by
  induction h with
  | done => cases defined
  | newline _ ih => exact List.mem_cons_of_mem _ (ih defined)
  | label name' _ ih =>
    rcases List.mem_cons.mp defined with same | defined
    · cases same
      exact List.mem_cons_self
    · exact List.mem_cons_of_mem _ (List.mem_cons_of_mem _ (ih defined))
  | instr _ _ _ ih =>
    rcases List.mem_cons.mp defined with same | defined
    · cases same
    · exact List.mem_append_right _ (ih defined)

/-- The names in an instruction are identifiers among its tokens. -/
theorem RsmInstr.Names.token_mem {instr : RsmInstr} {name : RsmIdent} (names : instr.Names name) :
    .ident name ∈ instr.tokens := by
  have operand : ∀ {opr : RsmOperand}, opr.Names name → .ident name ∈ opr.tokens := by
    rintro opr (rfl | rfl) <;> simp [RsmOperand.tokens, RsmMem.tokens]
  refine List.mem_cons_of_mem _ ?_
  unfold operandTokens
  split
  · next none =>
    rcases names with names | names
    · exact operand names
    · rw [none] at names
      rcases names with names | names <;> cases names
  · rcases names with names | names
    · exact List.mem_append_left _ (operand names)
    · exact List.mem_append_right _ (List.mem_cons_of_mem _ (operand names))

end Source

/-- **Names do not matter.** Where the labels of a text that parses are renamed, different ones
differently, the text still parses; resolving its labels and emitting it, whatever the output file
does, then have the results and leave the files that they do for the text itself, and make the same
reports with the new names for their arguments. -/
theorem renaming_keeps_image {f : RsmIdent → RsmIdent} {src src' : List Byte}
    (tokens : sourceTokens src' = (sourceTokens src).map (RsmTokenType.rename f))
    (different : Set.InjOn f {name | .ident name ∈ sourceTokens src}) {program : RsmProgram}
    (parses : Parses (fun _ => true) src program) :
    ∃ program', Parses (fun _ => true) src' program' ∧
      rsmResolveLabels program' = (rsmResolveLabels program).mapEvents (RsmEvent.rename f) ∧
      ∀ io old, rsmEmitBinary io program' old =
        (rsmEmitBinary io program old).mapEvents (RsmEvent.rename f) := by
  obtain ⟨items, sentence, built⟩ := parses.sentence
  have fits : LabelsFit 0 items := built.fits
  have renamed := sentence.rename (f := f)
  rw [← tokens] at renamed
  obtain ⟨program', parses', built'⟩ := renamed.parses_of_fits fits.rename
  have instrs : program.instrs.items = instrsOf items := built.instrs
  have labels : program.labels.items = labelsOf 0 items := built.labels
  have phases : Renames f program program' := by
    refine ⟨?_, ?_, fun label defined instr used name names same => ?_⟩
    · rw [built'.instrs, instrs, instrsOf_rename]
      rfl
    · rw [built'.labels, labels, ← labelsOf_rename]
      rfl
    · rw [labels] at defined
      rw [instrs] at used
      obtain ⟨before, after, split, _⟩ := mem_labelsOf.mp defined
      have mem : .label label.name ∈ items := by
        rw [split]
        exact List.mem_append_right _ List.mem_cons_self
      exact different (sentence.label_mem mem) (sentence.tokens_mem used names.token_mem) same
  exact ⟨program', parses', phases.phases⟩

/-- The source `b:JMP b`, and what the parser builds from it. -/
def renamedLoopSource : List Byte := ['b', ':', 'J', 'M', 'P', ' ', 'b'].map chr

def renamedLoopProgram : RsmProgram :=
  { instrs := ⟨[⟨.jmp, .label labelB, .none⟩], 1024, 1024⟩
    labels := ⟨[⟨labelB, 0⟩], 1024, 1024⟩ }

theorem renamedLoop_parses : Parses (fun _ => true) renamedLoopSource renamedLoopProgram := by
  unfold Parses
  decide

theorem renaming_keeps_image_loop :
    ∃ program', Parses (fun _ => true) renamedLoopSource program' ∧
      rsmResolveLabels program' =
        (rsmResolveLabels loopProgram).mapEvents (RsmEvent.rename fun _ => labelB) ∧
      ∀ io old, rsmEmitBinary io program' old =
        (rsmEmitBinary io loopProgram old).mapEvents (RsmEvent.rename fun _ => labelB) := by
  have tokens : sourceTokens loopSource =
      [.ident labelA, .colon, .opcode .jmp, .ident labelA] := by decide +kernel
  refine renaming_keeps_image (f := fun _ => labelB) (by decide +kernel) ?_ loop_parses
  rw [tokens]
  -- there is only one name to rename
  have one : ∀ name, .ident name ∈ [RsmTokenType.ident labelA, .colon, .opcode .jmp,
      .ident labelA] → name = labelA := by simp
  exact fun name mem name' mem' _ => (one name mem).trans (one name' mem').symm

end RocketVm
