import RocketVm.Asm.Dump
import RocketVm.Laws.Renaming
import RocketVm.Laws.Writer

/-!
# What a dump shows

Behind its index column, the line that is printed for an instruction is a line of source text, and
the lexer finds the instruction in it (`spells_dumpInstr`). So the listing of a program, without the
header line and the column, can be assembled again (`listing_parses`), and two programs with the
same listings are the same (`dumps_determine`).
-/

namespace RocketVm

open Lib

/-! ## Lines -/

def RsmInstr.Proper (instr : RsmInstr) : Prop := ∀ t ∈ instr.tokens, t.Proper

section Line

variable {ts : List RsmTokenType} {text : List Byte}

theorem spells_operand {opr : RsmOperand} (given : opr.Given)
    (proper : ∀ t ∈ opr.tokens, t.Proper) (ends : ts.head?.any RsmTokenType.isWord = false)
    (rest : Spells ts text) :
    Spells (opr.tokens ++ ts) (bytesOf " " ++ (rsmDumpOperand opr ++ text)) := by
  have apart : ∀ {t : RsmTokenType}, t.isWord = true →
      (ts.head?.any RsmTokenType.isWord) = true → BeginsBlank text := by
    intro t _ word
    rw [ends] at word
    cases word
  -- the word in brackets is followed by the closing bracket
  have bracket : ∀ {t : RsmTokenType}, t.isWord = true →
      ((RsmTokenType.rbracket :: ts).head?.any RsmTokenType.isWord) = true →
      BeginsBlank (bytesOf "]" ++ text) := by
    intro t _ word
    cases word
  have memory : ∀ t : RsmTokenType, t.Proper →
      (∀ s ∈ [RsmTokenType.lbracket, t, .rbracket], s.Proper) →
      Spells (.lbracket :: t :: .rbracket :: ts)
        (bytesOf " " ++ (bytesOf "[" ++ t.print ++ bytesOf "]" ++ text)) := by
    intro t inside _
    have closed : Spells (.rbracket :: ts) (bytesOf "]" ++ text) :=
      .close (t := .rbracket) trivial apart rest
    have opened := Spells.spaced (t := .lbracket) trivial (fun word => by cases word)
      (.close inside bracket closed)
    rwa [List.append_assoc, List.append_assoc]
  cases opr with
  | none => exact absurd rfl given.1
  | imm v => exact .spaced (proper _ List.mem_cons_self) apart rest
  | reg r => exact .spaced (proper _ List.mem_cons_self) apart rest
  | label name => exact .spaced (proper _ List.mem_cons_self) apart rest
  | mem m =>
    cases m with
    | none => exact absurd rfl given.2
    | imm v =>
      exact memory (.number v) (proper _ (by simp [RsmOperand.tokens, RsmMem.tokens])) proper
    | reg r => exact memory (.reg r) trivial proper
    | label name =>
      exact memory (.ident name) (proper _ (by simp [RsmOperand.tokens, RsmMem.tokens])) proper

/-- **A dumped instruction** is spelled by its line, behind the column. -/
theorem spells_dumpInstr {instr : RsmInstr} (accepted : Accepted instr) (proper : instr.Proper)
    (rest : Spells ts text) :
    Spells (instr.tokens ++ .newline :: ts) (dumpInstr instr ++ text) := by
  obtain ⟨op, opr1, opr2⟩ := instr
  have line : Spells (.newline :: ts) (bytesOf "\n" ++ text) :=
    .close (t := .newline) trivial (fun word => by cases word) rest
  have opcode : ∀ {ts' : List RsmTokenType} {text' : List Byte},
      Spells ts' (bytesOf " " ++ text') →
      Spells (.opcode op :: ts') (bytesOf (rvmOpcodeToString op.code) ++ (bytesOf " " ++ text')) :=
    fun rest' => .close (t := .opcode op) trivial (fun _ _ => beginsBlank_space _) rest'
  rcases accepted.operands with ⟨ret, none1, none2⟩ | ⟨_, given1, given2⟩
  · obtain rfl : opr1 = .none := none1
    obtain rfl : opr2 = .none := none2
    have whole := opcode (.spaced (t := .newline) trivial (fun word => by cases word) rest)
    have newline : RsmTokenType.newline.print = bytesOf "\n" := rfl
    rw [newline] at whole
    simpa only [dumpInstr, RsmInstr.tokens, operandTokens, RsmOperand.tokens, ne_eq,
      not_true_eq_false, ↓reduceIte, List.append_nil, List.append_assoc, List.cons_append,
      List.nil_append] using whole
  · have proper1 : ∀ t ∈ opr1.tokens, t.Proper := by
      intro t mem
      refine proper t (List.mem_cons_of_mem _ ?_)
      unfold operandTokens
      split
      · exact mem
      · exact List.mem_append_left _ mem
    by_cases single : opr2 = .none
    · obtain rfl := single
      have whole := opcode (spells_operand given1 proper1 rfl line)
      simpa only [dumpInstr, RsmInstr.tokens, operandTokens, given1.1, ne_eq, not_false_eq_true,
        not_true_eq_false, ↓reduceIte, List.append_nil, List.append_assoc,
        List.cons_append] using whole
    · have proper2 : ∀ t ∈ opr2.tokens, t.Proper := by
        intro t mem
        refine proper t (List.mem_cons_of_mem _ ?_)
        rw [operandTokens, if_neg single]
        exact List.mem_append_right _ (List.mem_cons_of_mem _ mem)
      have comma : Spells (.comma :: (opr2.tokens ++ .newline :: ts))
          (bytesOf "," ++ (bytesOf " " ++ (rsmDumpOperand opr2 ++ (bytesOf "\n" ++ text)))) :=
        .close (t := .comma) trivial (fun word => by cases word)
          (spells_operand (given2 single) proper2 rfl line)
      have whole := opcode (spells_operand given1 proper1 rfl comma)
      have separator : bytesOf ", " = bytesOf "," ++ bytesOf " " := rfl
      simpa only [dumpInstr, RsmInstr.tokens, operandTokens, single, given1.1, ne_eq,
        not_false_eq_true, ↓reduceIte, List.append_assoc, List.cons_append, separator] using whole

end Line

/-! ## Listings -/

theorem Parses.proper {realloc : Nat → Bool} {src : List Byte} {program : RsmProgram}
    (parses : Parses realloc src program) : ∀ instr ∈ program.instrs.items, instr.Proper := by
  obtain ⟨items, sentence, built⟩ := parses.sentence
  intro instr mem t inside
  rw [built.instrs] at mem
  refine sourceTokens_proper (sentence.tokens_mem mem inside) ?_
  rintro rfl
  cases instr.tokens_inInstr _ inside

theorem spells_listing {instrs : List RsmInstr} (accepted : ∀ instr ∈ instrs, Accepted instr)
    (proper : ∀ instr ∈ instrs, instr.Proper) :
    Spells (instrs.flatMap fun instr => instr.tokens ++ [.newline]) (instrs.flatMap dumpInstr) := by
  induction instrs with
  | nil => exact @Spells.done [] [] no_blanks .none
  | cons instr instrs ih =>
    have rest := ih (fun i mem => accepted i (List.mem_cons_of_mem _ mem))
      fun i mem => proper i (List.mem_cons_of_mem _ mem)
    have line := spells_dumpInstr (accepted instr List.mem_cons_self)
      (proper instr List.mem_cons_self) rest
    simpa only [List.flatMap_cons, List.append_assoc, List.singleton_append] using line

theorem sentence_listing {instrs : List RsmInstr} (accepted : ∀ instr ∈ instrs, Accepted instr) :
    Sentence Accepted (instrs.flatMap fun instr => instr.tokens ++ [.newline])
      (instrs.map RsmItem.instr) := by
  induction instrs with
  | nil => exact .done
  | cons instr instrs ih =>
    have rest := ih fun i mem => accepted i (List.mem_cons_of_mem _ mem)
    rw [List.flatMap_cons, List.append_assoc]
    exact .instr (accepted instr List.mem_cons_self) (.inr ⟨_, rfl⟩) (.newline rest)

theorem instrsOf_map_instr (instrs : List RsmInstr) :
    instrsOf (instrs.map RsmItem.instr) = instrs := by
  induction instrs with
  | nil => rfl
  | cons instr instrs ih => exact congrArg (List.cons instr) ih

theorem labelsOf_map_instr (n : Nat) (instrs : List RsmInstr) :
    labelsOf n (instrs.map RsmItem.instr) = [] := by
  induction instrs generalizing n with
  | nil => rfl
  | cons instr instrs ih => exact ih (n + 1)

theorem labelsFit_map_instr (n : Nat) (instrs : List RsmInstr) :
    LabelsFit n (instrs.map RsmItem.instr) := by
  intro before name after split
  have mem : RsmItem.label name ∈ instrs.map RsmItem.instr := by
    rw [split]
    exact List.mem_append_right _ List.mem_cons_self
  obtain ⟨_, _, same⟩ := List.mem_map.mp mem
  cases same

/-! ## Lines of a dump -/

theorem digitChar_lt_sixteen : ∀ d < 16, digitValue (digitChar d) = d ∧
    digitChar d ≠ chr '\n' ∧ digitChar d ≠ chr ' ' := by
  decide

/-- The digits of a printed number are neither newlines nor blanks. -/
theorem digits_not_mem {base : Nat} {ds : List Nat} (small : ∀ d ∈ ds, d < base)
    (bound : base ≤ 16) : chr '\n' ∉ ds.map digitChar ∧ chr ' ' ∉ ds.map digitChar := by
  have each : ∀ d ∈ ds, digitChar d ≠ chr '\n' ∧ digitChar d ≠ chr ' ' := fun d mem =>
    (digitChar_lt_sixteen d (Nat.lt_of_lt_of_le (small d mem) bound)).2
  constructor
  · intro mem
    obtain ⟨d, inside, same⟩ := List.mem_map.mp mem
    exact (each d inside).1 same
  · intro mem
    obtain ⟨d, inside, same⟩ := List.mem_map.mp mem
    exact (each d inside).2 same

theorem printU_line (n : Nat) : chr '\n' ∉ printU n :=
  (digits_not_mem (fun _ mem => lt_of_mem_numeral (by decide) mem) (by decide)).1

theorem printD_line (v : SInt32) : chr '\n' ∉ printD v := by
  unfold printD
  split
  · intro mem
    rcases List.mem_cons.mp mem with sign | digit
    · exact absurd sign (by decide)
    · exact printU_line _ digit
  · exact printU_line _

theorem dumpOperand_line (opr : RsmOperand) : chr '\n' ∉ rsmDumpOperand opr := by
  have reg : ∀ r : RvmReg, chr '\n' ∉ bytesOf (rvmRegToString r.val) := by decide
  cases opr with
  | none => decide
  | imm v => exact printD_line v
  | reg r => exact reg r
  | label name => exact name.newline_not_mem
  | mem m =>
    have brackets : ∀ text : List Byte, chr '\n' ∉ text →
        chr '\n' ∉ bytesOf "[" ++ text ++ bytesOf "]" := by
      intro text line mem
      rcases List.mem_append.mp mem with mem | mem
      · rcases List.mem_append.mp mem with mem | mem
        · exact absurd mem (by decide)
        · exact line mem
      · exact absurd mem (by decide)
    refine brackets _ ?_
    cases m with
    | none => decide
    | imm v => exact printD_line v
    | reg r => exact reg r
    | label name => exact name.newline_not_mem

/-- The line of an instruction is one line. -/
theorem dumpInstr_line (instr : RsmInstr) :
    ∃ line, dumpInstr instr = line ++ [chr '\n'] ∧ chr '\n' ∉ line := by
  obtain ⟨op, opr1, opr2⟩ := instr
  have name : chr '\n' ∉ bytesOf (rvmOpcodeToString op.code) := by cases op <;> decide
  have first := dumpOperand_line opr1
  have second := dumpOperand_line opr2
  refine ⟨_, rfl, fun mem => ?_⟩
  rcases List.mem_append.mp mem with mem | mem
  · rcases List.mem_append.mp mem with mem | mem
    · rcases List.mem_append.mp mem with mem | mem
      · exact name mem
      · exact absurd mem (by decide)
    · split at mem
      · exact first mem
      · cases mem
  · split at mem
    · rcases List.mem_append.mp mem with mem | mem
      · exact absurd mem (by decide)
      · exact second mem
    · cases mem

/-- The header of a dump is one line. -/
theorem header_line {title : String} (line : chr '\n' ∉ bytesOf title) (n : Nat) :
    ∃ header, bytesOf title ++ printU n ++ bytesOf ") ===\n" = header ++ [chr '\n'] ∧
      chr '\n' ∉ header := by
  have closing : bytesOf ") ===\n" = bytesOf ") ===" ++ [chr '\n'] := rfl
  refine ⟨bytesOf title ++ printU n ++ bytesOf ") ===", ?_, fun mem => ?_⟩
  · rw [closing, List.append_assoc _ _ [chr '\n']]
  rcases List.mem_append.mp mem with mem | mem
  · rcases List.mem_append.mp mem with mem | mem
    · exact line mem
    · exact printU_line n mem
  · exact absurd mem (by decide)

/-! ## Listings as sources -/

/-- A line of a listing without its index column, which ends at the first blank. -/
def withoutColumn (line : List Byte) : List Byte :=
  (line.dropWhile fun c => decide (c ≠ chr ' ')).drop 1

/-- A listing without its header line and its index column. -/
def listingSource (listing : List Byte) : List Byte :=
  [chr '\n'].intercalate ((listing.splitOn (chr '\n')).tail.map withoutColumn)

theorem printU04_line (i : Nat) : chr '\n' ∉ printU04 i ∧ chr ' ' ∉ printU04 i :=
  digits_not_mem (fun _ mem => lt_of_mem_padZeros (by decide) mem) (by decide)

theorem dumpIndex_line (i : Nat) : chr '\n' ∉ dumpIndex i := by
  intro mem
  rcases List.mem_append.mp mem with mem | mem
  · rcases List.mem_append.mp mem with mem | mem
    · exact absurd mem (by decide)
    · exact (printU04_line i).1 mem
  · exact absurd mem (by decide)

theorem withoutColumn_dumpIndex (i : Nat) (line : List Byte) :
    withoutColumn (dumpIndex i ++ line) = line := by
  have close : bytesOf "] " = [chr ']'] ++ [chr ' '] := rfl
  have column : ∀ c ∈ bytesOf "[" ++ printU04 i ++ [chr ']'], decide (c ≠ chr ' ') = true := by
    intro c mem
    rw [decide_eq_true_eq]
    rintro rfl
    rcases List.mem_append.mp mem with mem | mem
    · rcases List.mem_append.mp mem with mem | mem
      · exact absurd mem (by decide)
      · exact (printU04_line i).2 mem
    · exact absurd mem (by decide)
  rw [withoutColumn, dumpIndex, close, ← List.append_assoc _ [chr ']'],
    List.append_assoc _ [chr ' '], List.dropWhile_append_of_pos column]
  rfl

/-- The lines of the loop, without the column. -/
theorem dumpInstrs_withoutColumn (i : Nat) (instrs : List RsmInstr) :
    [chr '\n'].intercalate (((dumpInstrs i instrs).splitOn (chr '\n')).map withoutColumn) =
      instrs.flatMap dumpInstr := by
  induction instrs generalizing i with
  | nil => rfl
  | cons instr instrs ih =>
    obtain ⟨line, ends, inside⟩ := dumpInstr_line instr
    have whole : chr '\n' ∉ dumpIndex i ++ line := fun mem =>
      (List.mem_append.mp mem).elim (dumpIndex_line i) inside
    rw [dumpInstrs, ends, ← List.append_assoc, List.append_assoc _ [chr '\n'],
      List.singleton_append, List.splitOn_append_cons_self, List.splitOn_eq_singleton whole,
      List.singleton_append, List.map_cons, withoutColumn_dumpIndex,
      List.intercalate_cons_of_ne_nil (by simp [List.splitOn_ne_nil]), ih, List.flatMap_cons, ends]

/-- Without its header line and its index column, what `rsm_program_dump_instrs` prints are the
lines of the instructions. -/
theorem listingSource_dump (program : RsmProgram) :
    listingSource (rsmProgramDumpInstrs program) = program.instrs.items.flatMap dumpInstr := by
  have title : ∃ line, bytesOf "=== PROGRAM INSTRUCTIONS (" ++
      printU program.instrs.items.length ++ bytesOf ") ===\n" = line ++ [chr '\n'] ∧
        chr '\n' ∉ line := header_line (by decide) _
  obtain ⟨line, ends, inside⟩ := title
  rw [listingSource, rsmProgramDumpInstrs, ends, List.append_assoc, List.singleton_append,
    List.splitOn_append_cons_self, List.splitOn_eq_singleton inside, List.singleton_append,
    List.tail_cons, dumpInstrs_withoutColumn]

/-- **A listing is source text.** What `rsm_program_dump_instrs` prints, without its header line and
its index column, parses, and what is parsed are the instructions of the program. -/
theorem listing_parses {realloc : Nat → Bool} {src : List Byte} {program : RsmProgram}
    (parses : Parses realloc src program) :
    ∃ program', Parses (fun _ => true) (listingSource (rsmProgramDumpInstrs program)) program' ∧
      program'.instrs.items = program.instrs.items ∧ program'.labels.items = [] := by
  have sentence := sentence_listing parses.accepted
  have spells := spells_listing parses.accepted parses.proper
  rw [← spells.sourceTokens, ← listingSource_dump] at sentence
  obtain ⟨program', parsed, built⟩ :=
    sentence.parses_of_fits (labelsFit_map_instr 0 program.instrs.items)
  refine ⟨program', parsed, ?_, ?_⟩
  · rw [built.instrs, instrsOf_map_instr]
    rfl
  · rw [built.labels]
    exact labelsOf_map_instr _ _

theorem listing_parses_loop :
    ∃ program', Parses (fun _ => true) (listingSource (rsmProgramDumpInstrs loopProgram)) program' ∧
      program'.instrs.items = loopProgram.instrs.items ∧ program'.labels.items = [] :=
  listing_parses loop_parses

/-! ## Equal dumps -/

/-- What is before the first separator of two equal texts is equal. -/
theorem append_separator_inj {α : Type} {sep : α} {xs ys r s : List α} (notin : sep ∉ xs)
    (notin' : sep ∉ ys) (same : xs ++ sep :: r = ys ++ sep :: s) : xs = ys ∧ r = s := by
  induction xs generalizing ys with
  | nil =>
    cases ys with
    | nil => exact ⟨rfl, (List.cons.inj same).2⟩
    | cons y ys => exact absurd (List.mem_cons.mpr (.inl (List.cons.inj same).1)) notin'
  | cons x xs ih =>
    cases ys with
    | nil => exact absurd (List.mem_cons.mpr (.inl (List.cons.inj same).1.symm)) notin
    | cons y ys =>
      obtain ⟨rfl, rest⟩ := List.cons.inj same
      obtain ⟨rfl, behind⟩ := ih (fun mem => notin (List.mem_cons_of_mem _ mem))
        (fun mem => notin' (List.mem_cons_of_mem _ mem)) rest
      exact ⟨rfl, behind⟩

/-- An instruction is known from its line. -/
theorem dumpInstr_inj {instr instr' : RsmInstr} (accepted : Accepted instr)
    (accepted' : Accepted instr') (proper : instr.Proper) (proper' : instr'.Proper)
    (same : dumpInstr instr = dumpInstr instr') : instr = instr' := by
  have sentence : ∀ {instr : RsmInstr}, Accepted instr → instr.Proper →
      Sentence Accepted (sourceTokens (dumpInstr instr)) [.instr instr] := by
    intro instr accepted proper
    have spelled := spells_dumpInstr accepted proper (@Spells.done [] [] no_blanks .none)
    rw [List.append_nil, List.append_nil] at spelled
    rw [spelled.sourceTokens]
    exact .instr accepted (.inr ⟨[], rfl⟩) (.newline .done)
  have first := sentence accepted proper
  have second := sentence accepted' proper'
  rw [← same] at second
  have few : (sourceTokens (dumpInstr instr)).countP RsmTokenType.isOpcode < 65536 := by
    rw [← first.length]
    show 1 < 65536
    omega
  exact (List.cons.inj (first.instrsOf_unique few second)).1

theorem printX04_inj {a a' : Nat} (same : printX04 a = printX04 a') : a = a' := by
  have back : ∀ n : Nat, (printX04 n).map digitValue = padZeros 4 (numeral 16 n) := by
    intro n
    rw [printX04, List.map_map]
    refine (List.map_congr_left fun d mem => ?_).trans (List.map_id _)
    exact (digitChar_lt_sixteen d (lt_of_mem_padZeros (by decide) mem)).1
  have digits := congrArg (List.map digitValue) same
  rw [back, back] at digits
  exact padZeros_injective 16 4 digits

/-- The line of a label is one line, and the name and the address of the label are in it. -/
theorem dumpLabel_inj {label label' : RsmLabel} {rest rest' : List Byte}
    (same : dumpLabel label ++ rest = dumpLabel label' ++ rest') :
    label = label' ∧ rest = rest' := by
  have arrow : bytesOf " -> 0x" = chr ' ' :: bytesOf "-> 0x" := rfl
  have bracket : bytesOf " (" = chr ' ' :: bytesOf "(" := rfl
  have name : ∀ name : RsmIdent, chr ' ' ∉ name.bytes := fun name mem =>
    absurd (List.all_eq_true.mp name.chars _ mem) (by decide)
  have address : ∀ a : Word, chr ' ' ∉ printX04 a.toNat := fun a =>
    (digits_not_mem (fun _ mem => lt_of_mem_padZeros (by decide) mem) (by decide)).2
  simp only [dumpLabel, arrow, bracket, List.append_assoc, List.cons_append] at same
  obtain ⟨names, same⟩ := append_separator_inj (name _) (name _) same
  obtain ⟨addresses, same⟩ :=
    append_separator_inj (address _) (address _) (List.append_cancel_left same)
  obtain ⟨n, a⟩ := label
  obtain ⟨n', a'⟩ := label'
  obtain rfl : n = n' := RsmIdent.bytes_injective names
  obtain rfl : a = a' := BitVec.eq_of_toNat_eq (printX04_inj addresses)
  exact ⟨rfl, List.append_cancel_left (List.append_cancel_left (List.append_cancel_left same))⟩

theorem dumpIndex_ne_nil (i : Nat) (text : List Byte) : dumpIndex i ++ text ≠ [] := by
  intro none
  cases (List.append_eq_nil_iff.mp (List.append_eq_nil_iff.mp
    (List.append_eq_nil_iff.mp none).1).1).1

theorem dumpInstrs_inj {i : Nat} {instrs instrs' : List RsmInstr}
    (accepted : ∀ instr ∈ instrs, Accepted instr ∧ instr.Proper)
    (accepted' : ∀ instr ∈ instrs', Accepted instr ∧ instr.Proper)
    (same : dumpInstrs i instrs = dumpInstrs i instrs') : instrs = instrs' := by
  induction instrs generalizing i instrs' with
  | nil =>
    cases instrs' with
    | nil => rfl
    | cons instr' instrs' =>
      rw [dumpInstrs, dumpInstrs, List.append_assoc] at same
      exact absurd same.symm (dumpIndex_ne_nil i _)
  | cons instr instrs ih =>
    cases instrs' with
    | nil =>
      rw [dumpInstrs, dumpInstrs, List.append_assoc] at same
      exact absurd same (dumpIndex_ne_nil i _)
    | cons instr' instrs' =>
      obtain ⟨line, ends, inside⟩ := dumpInstr_line instr
      obtain ⟨line', ends', inside'⟩ := dumpInstr_line instr'
      rw [dumpInstrs, dumpInstrs, List.append_assoc, List.append_assoc,
        List.append_cancel_left_eq, ends, ends', List.append_assoc, List.append_assoc] at same
      obtain ⟨rfl, rest⟩ := append_separator_inj inside inside' same
      obtain ⟨ok, proper⟩ := accepted instr List.mem_cons_self
      obtain ⟨ok', proper'⟩ := accepted' instr' List.mem_cons_self
      rw [dumpInstr_inj ok ok' proper proper' (ends.trans ends'.symm),
        ih (fun j mem => accepted j (List.mem_cons_of_mem _ mem))
          (fun j mem => accepted' j (List.mem_cons_of_mem _ mem)) rest]

theorem dumpLabels_inj {i : Nat} {labels labels' : List RsmLabel}
    (same : dumpLabels i labels = dumpLabels i labels') : labels = labels' := by
  induction labels generalizing i labels' with
  | nil =>
    cases labels' with
    | nil => rfl
    | cons label' labels' =>
      rw [dumpLabels, dumpLabels, List.append_assoc] at same
      exact absurd same.symm (dumpIndex_ne_nil i _)
  | cons label labels ih =>
    cases labels' with
    | nil =>
      rw [dumpLabels, dumpLabels, List.append_assoc] at same
      exact absurd same (dumpIndex_ne_nil i _)
    | cons label' labels' =>
      rw [dumpLabels, dumpLabels, List.append_assoc, List.append_assoc,
        List.append_cancel_left_eq] at same
      obtain ⟨rfl, rest⟩ := dumpLabel_inj same
      rw [ih rest]

/-- A dump is a header line with what the loop prints behind it. -/
theorem dump_header {title : String} {n n' : Nat} {rest rest' : List Byte}
    (line : chr '\n' ∉ bytesOf title)
    (same : bytesOf title ++ printU n ++ bytesOf ") ===\n" ++ rest =
      bytesOf title ++ printU n' ++ bytesOf ") ===\n" ++ rest') : rest = rest' := by
  obtain ⟨header, ends, inside⟩ := header_line line n
  obtain ⟨header', ends', inside'⟩ := header_line line n'
  rw [ends, ends', List.append_assoc, List.append_assoc] at same
  exact (append_separator_inj inside inside' same).2

/-- **Dumps tell programs apart.** Two programs that were parsed from any two texts have the same
dumps exactly when they have the same instructions and the same labels. -/
theorem dumps_determine {realloc realloc' : Nat → Bool} {src src' : List Byte}
    {program program' : RsmProgram} (parses : Parses realloc src program)
    (parses' : Parses realloc' src' program') :
    (rsmProgramDumpInstrs program = rsmProgramDumpInstrs program' ∧
      rsmProgramDumpLabels program = rsmProgramDumpLabels program') ↔
    program.instrs.items = program'.instrs.items ∧
      program.labels.items = program'.labels.items := by
  constructor
  · rintro ⟨instrs, labels⟩
    refine ⟨dumpInstrs_inj ?_ ?_ (dump_header (by decide) instrs),
      dumpLabels_inj (dump_header (by decide) labels)⟩
    · exact fun instr mem => ⟨parses.accepted instr mem, parses.proper instr mem⟩
    · exact fun instr mem => ⟨parses'.accepted instr mem, parses'.proper instr mem⟩
  · rintro ⟨instrs, labels⟩
    simp only [rsmProgramDumpInstrs, rsmProgramDumpLabels, instrs, labels, and_self]

theorem dumps_determine_loops :
    (rsmProgramDumpInstrs loopProgram = rsmProgramDumpInstrs renamedLoopProgram ∧
      rsmProgramDumpLabels loopProgram = rsmProgramDumpLabels renamedLoopProgram) ↔
    loopProgram.instrs.items = renamedLoopProgram.instrs.items ∧
      loopProgram.labels.items = renamedLoopProgram.labels.items :=
  dumps_determine loop_parses renamedLoop_parses

end RocketVm
