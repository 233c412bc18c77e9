import RocketVm.Asm.Program

/-!
# The tables of a program

What a push does to a growing table, and what holds of both tables of a program after every sequence
of pushes, whichever of their calls of `realloc` fail (`tables_intact`).
-/

namespace RocketVm

open Lib

/-! ## One table -/

section Table

variable {α : Type}

/-- What a push does: it is refused the larger block that it needs, it moves the items to a block of
twice the size, or it finds room. -/
inductive PushCase (table : RsmTable α) (item : α) : Int → RsmTable α → List RsmEvent → Prop
  | refused (full : table.capacity ≤ table.items.length) :
      PushCase table item (-1) table [.error "realloc"]
  | grown (full : table.capacity ≤ table.items.length) :
      PushCase table item 0 ⟨table.items ++ [item], table.capacity * 2, table.capacity * 2⟩
        [.store table.items.length (table.capacity * 2)]
  | stored (room : table.items.length < table.capacity) :
      PushCase table item 0 ⟨table.items ++ [item], table.capacity, table.allocated⟩
        [.store table.items.length table.allocated]

theorem RsmTable.push_cases (size : Nat) (realloc : Nat → Bool) (table : RsmTable α) (item : α) :
    PushCase table item (table.push size realloc item).val.1
      (table.push size realloc item).val.2 (table.push size realloc item).events := by
  unfold push
  split
  · next full =>
    dsimp only
    split
    · exact .refused full
    · exact .grown full
  · next room => exact .stored (Nat.not_le.mp room)

/-- The items fit the capacity, and the capacity is the number of slots of the block. -/
structure RsmTable.Intact (table : RsmTable α) : Prop where
  positive : 0 < table.capacity
  count : table.items.length ≤ table.capacity
  allocated : table.capacity = table.allocated

theorem RsmTable.create_intact : (RsmTable.create : RsmTable α).Intact :=
  ⟨Nat.succ_pos 1023, Nat.zero_le _, rfl⟩

variable {table table' : RsmTable α} {item : α} {ret : Int} {events : List RsmEvent}

theorem PushCase.intact (h : PushCase table item ret table' events) (intact : table.Intact) :
    table'.Intact := by
  obtain ⟨positive, count, allocated⟩ := intact
  have length : (table.items ++ [item]).length = table.items.length + 1 := List.length_append
  cases h with
  | refused full => exact ⟨positive, count, allocated⟩
  | grown full =>
    -- a full table has exactly as many items as slots, and there is at least one slot
    have room : (table.items ++ [item]).length ≤ table.capacity * 2 := by omega
    exact ⟨Nat.mul_pos positive Nat.two_pos, room, rfl⟩
  | stored room => exact ⟨positive, length ▸ room, allocated⟩

/-- Every store is inside the block. -/
theorem PushCase.inside (h : PushCase table item ret table' events) (intact : table.Intact)
    {index slots : Nat} (stored : .store index slots ∈ events) : index < slots := by
  obtain ⟨positive, count, allocated⟩ := intact
  cases h with
  | refused full => cases List.mem_singleton.mp stored
  | grown full =>
    cases List.mem_singleton.mp stored
    omega
  | stored room =>
    cases List.mem_singleton.mp stored
    omega

/-- A push returns -1 and leaves the table, or 0 and appends the item. -/
theorem PushCase.appends (h : PushCase table item ret table' events) :
    (ret = -1 ∧ table' = table) ∨ (ret = 0 ∧ table'.items = table.items ++ [item]) := by
  cases h with
  | refused => exact .inl ⟨rfl, rfl⟩
  | grown | stored => exact .inr ⟨rfl, rfl⟩

end Table

/-! ## Sequences of pushes -/

/-- A push to one of the two tables, with what `realloc` answers in it. -/
inductive RsmPush
  | instr (realloc : Nat → Bool) (instr : RsmInstr)
  | label (realloc : Nat → Bool) (label : RsmLabel)

def RsmPush.instr? : RsmPush → Option RsmInstr
  | .instr _ item => some item
  | .label _ _ => none

def RsmPush.label? : RsmPush → Option RsmLabel
  | .instr _ _ => none
  | .label _ item => some item

def RsmProgram.push (program : RsmProgram) : RsmPush → Traced RsmEvent (Int × RsmProgram)
  | .instr realloc instr => rsmProgramPushInstr realloc program instr
  | .label realloc label => rsmProgramPushLabel realloc program label

/-- The pushes of a sequence, one after the other: their return codes and the program they leave. -/
def RsmProgram.pushAll : RsmProgram → List RsmPush → Traced RsmEvent (List Int × RsmProgram)
  | program, [] => return ([], program)
  | program, push :: pushes => do
    let (ret, program) ← program.push push
    let (rets, program) ← program.pushAll pushes
    return (ret :: rets, program)

/-- The pushes that returned 0. -/
def pushed : List RsmPush → List Int → List RsmPush
  | push :: pushes, ret :: rets =>
    if ret = 0 then push :: pushed pushes rets else pushed pushes rets
  | _, _ => []

/-- Both tables are intact. -/
structure RsmProgram.Intact (program : RsmProgram) : Prop where
  instrs : program.instrs.Intact
  labels : program.labels.Intact

/-- What one push does to a program: its table takes it, and the other one is left alone. -/
inductive PushStep (program : RsmProgram) : RsmPush → Int → RsmProgram → List RsmEvent → Prop
  | instr {realloc instr ret table events} (push : PushCase program.instrs instr ret table events) :
      PushStep program (.instr realloc instr) ret { program with instrs := table } events
  | label {realloc label ret table events} (push : PushCase program.labels label ret table events) :
      PushStep program (.label realloc label) ret { program with labels := table } events

theorem RsmProgram.push_step (program : RsmProgram) (push : RsmPush) :
    PushStep program push (program.push push).val.1 (program.push push).val.2
      (program.push push).events := by
  cases push with
  | instr realloc instr =>
    have events : (program.push (.instr realloc instr)).events =
        (program.instrs.push RSM_INSTR_SIZE realloc instr).events := List.append_nil _
    rw [events]
    exact .instr (RsmTable.push_cases RSM_INSTR_SIZE realloc program.instrs instr)
  | label realloc label =>
    have events : (program.push (.label realloc label)).events =
        (program.labels.push RSM_LABEL_SIZE realloc label).events := List.append_nil _
    rw [events]
    exact .label (RsmTable.push_cases RSM_LABEL_SIZE realloc program.labels label)

section Step

variable {program program' : RsmProgram} {push : RsmPush} {ret : Int} {events : List RsmEvent}

theorem PushStep.intact (h : PushStep program push ret program' events) (intact : program.Intact) :
    program'.Intact := by
  cases h with
  | instr push => exact ⟨push.intact intact.instrs, intact.labels⟩
  | label push => exact ⟨intact.instrs, push.intact intact.labels⟩

theorem PushStep.inside (h : PushStep program push ret program' events) (intact : program.Intact)
    {index slots : Nat} (stored : .store index slots ∈ events) : index < slots := by
  cases h with
  | instr push => exact push.inside intact.instrs stored
  | label push => exact push.inside intact.labels stored

/-- A push that fails changes nothing; one that returns 0 appends its item to its own table. -/
theorem PushStep.appends (h : PushStep program push ret program' events) :
    (ret = -1 ∧ program' = program) ∨
    (ret = 0 ∧ program'.instrs.items = program.instrs.items ++ push.instr?.toList ∧
      program'.labels.items = program.labels.items ++ push.label?.toList) := by
  cases h with
  | instr push =>
    rcases push.appends with ⟨failed, rfl⟩ | ⟨ok, items⟩
    · exact .inl ⟨failed, rfl⟩
    · exact .inr ⟨ok, items, (List.append_nil _).symm⟩
  | label push =>
    rcases push.appends with ⟨failed, rfl⟩ | ⟨ok, items⟩
    · exact .inl ⟨failed, rfl⟩
    · exact .inr ⟨ok, (List.append_nil _).symm, items⟩

/-- A push leaves the other table alone. -/
theorem PushStep.apart (h : PushStep program push ret program' events) :
    (push.instr?.isSome = true → program'.labels = program.labels) ∧
    (push.label?.isSome = true → program'.instrs = program.instrs) := by
  cases h with
  | instr push => exact ⟨fun _ => rfl, fun none => absurd none Bool.false_ne_true⟩
  | label push => exact ⟨fun none => absurd none Bool.false_ne_true, fun _ => rfl⟩

end Step

/-! ## Runs -/

/-- The tables of `program'` hold those of `program`, and behind them the items of the pushes that
returned 0. -/
structure HoldsPushed (program : RsmProgram) (pushes : List RsmPush) (rets : List Int)
    (program' : RsmProgram) : Prop where
  instrs : program'.instrs.items =
    program.instrs.items ++ (pushed pushes rets).filterMap RsmPush.instr?
  labels : program'.labels.items =
    program.labels.items ++ (pushed pushes rets).filterMap RsmPush.label?

theorem pushAll_holds (program : RsmProgram) (pushes : List RsmPush) :
    HoldsPushed program pushes (program.pushAll pushes).val.1 (program.pushAll pushes).val.2 := by
  have toList : ∀ {α : Type} (f : RsmPush → Option α) (push : RsmPush) (pushes : List RsmPush),
      (push :: pushes).filterMap f = (f push).toList ++ pushes.filterMap f := by
    intro α f push pushes
    rw [List.filterMap_cons]
    cases f push <;> rfl
  induction pushes generalizing program with
  | nil => exact ⟨(List.append_nil _).symm, (List.append_nil _).symm⟩
  | cons push pushes ih =>
    have rest := ih (program.push push).val.2
    show HoldsPushed program (push :: pushes) ((program.push push).val.1 ::
      ((program.push push).val.2.pushAll pushes).val.1)
      ((program.push push).val.2.pushAll pushes).val.2
    obtain ⟨failed, same⟩ | ⟨ok, instrs, labels⟩ := (program.push_step push).appends
    · rw [same] at rest ⊢
      constructor
      · rw [pushed, if_neg (by rw [failed]; decide)]
        exact rest.instrs
      · rw [pushed, if_neg (by rw [failed]; decide)]
        exact rest.labels
    · constructor
      · rw [pushed, if_pos ok, rest.instrs, instrs, toList, List.append_assoc]
      · rw [pushed, if_pos ok, rest.labels, labels, toList, List.append_assoc]

theorem pushAll_intact {program : RsmProgram} (intact : program.Intact) (pushes : List RsmPush) :
    (program.pushAll pushes).val.2.Intact ∧
      ∀ index slots, .store index slots ∈ (program.pushAll pushes).events → index < slots := by
  induction pushes generalizing program with
  | nil => exact ⟨intact, fun _ _ none => absurd none List.not_mem_nil⟩
  | cons push pushes ih =>
    have step := program.push_step push
    obtain ⟨intact', inside⟩ := ih (step.intact intact)
    refine ⟨intact', fun index slots stored => ?_⟩
    rw [RsmProgram.pushAll, Traced.events_bind, Traced.events_bind, Traced.events_pure,
      List.append_nil] at stored
    rcases List.mem_append.mp stored with first | later
    · exact step.inside intact first
    · exact inside index slots later

/-- **The tables.** After every sequence of pushes to a new program, whichever calls of `realloc`
fail, each table holds the items of the pushes that returned 0, in order; its items fit its
capacity, which is the number of slots of its block; and every store was inside the block it went
to. A further push that fails changes nothing, and one to a table leaves the other alone. -/
theorem tables_intact (pushes : List RsmPush) :
    let run := rsmProgramCreate.pushAll pushes
    let program := run.val.2
    program.instrs.items = (pushed pushes run.val.1).filterMap RsmPush.instr? ∧
    program.labels.items = (pushed pushes run.val.1).filterMap RsmPush.label? ∧
    program.Intact ∧
    (∀ index slots, .store index slots ∈ run.events → index < slots) ∧
    ∀ push, ((program.push push).val.1 = -1 → (program.push push).val.2 = program) ∧
      (push.instr?.isSome = true → (program.push push).val.2.labels = program.labels) ∧
      (push.label?.isSome = true → (program.push push).val.2.instrs = program.instrs) := by
  have start : rsmProgramCreate.Intact := ⟨RsmTable.create_intact, RsmTable.create_intact⟩
  have holds := pushAll_holds rsmProgramCreate pushes
  obtain ⟨intact, inside⟩ := pushAll_intact start pushes
  refine ⟨holds.instrs, holds.labels, intact, inside, fun push => ⟨fun failed => ?_, ?_⟩⟩
  · obtain ⟨_, same⟩ | ⟨ok, _⟩ := (RsmProgram.push_step _ push).appends
    · exact same
    · cases failed.symm.trans ok
  · exact (RsmProgram.push_step _ push).apart

end RocketVm
