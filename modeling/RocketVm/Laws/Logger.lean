import RocketVm.Logger
import RocketVm.Lib.Saturating

/-!
# Records of the log

`Filled` is what the buffer of `rvm_log` holds of the text that has been printed into it; each of
the three ways in which the buffer is filled keeps it. From it, what any calls of `rvm_log` leave on
the standard error, and when that can be read back line by line.
-/

namespace RocketVm

open Lib

/-! ## The buffer -/

section Buffer

variable {buf : ByteStore RVM_LOG_SIZE} {offset : Nat}

theorem get_storeBytes {i : Nat} {bs : List Byte} (fits : i + bs.length ≤ RVM_LOG_SIZE) (j : Nat) :
    (storeBytes buf i bs).val.get j =
      if i ≤ j then (bs[j - i]?).getD (buf.get j) else buf.get j := by
  induction bs generalizing buf i with
  | nil =>
    rw [List.getElem?_nil, Option.getD_none, ite_self]
    rfl
  | cons b bs ih =>
    have inside : i < RVM_LOG_SIZE := by
      rw [List.length_cons] at fits
      omega
    show (storeBytes (buf.set i b) (i + 1) bs).val.get j = _
    rw [ih (by rw [List.length_cons] at fits; omega), ByteStore.get_set _ _ _ inside]
    rcases Nat.lt_trichotomy i j with after | rfl | before
    · obtain ⟨d, rfl⟩ := Nat.exists_eq_add_of_lt after
      have behind : i + d + 1 - i = d + 1 := by omega
      have rest : i + d + 1 - (i + 1) = d := by omega
      rw [if_pos (Nat.succ_le_of_lt after), if_neg (Nat.ne_of_gt after),
        if_pos (Nat.le_of_lt after), behind, rest, List.getElem?_cons_succ]
    · rw [if_neg (Nat.not_succ_le_self i), if_pos rfl, if_pos (Nat.le_refl i), Nat.sub_self]
      rfl
    · rw [if_neg (by omega), if_neg (Nat.ne_of_lt before), if_neg (Nat.not_le.mpr before)]

/-- The stores stay in front of the end of the bytes. -/
theorem storeBytes_events {i : Nat} {bs : List Byte} :
    ∀ e ∈ (storeBytes buf i bs).events, ∃ j, e = .store j ∧ j < i + bs.length := by
  induction bs generalizing buf i with
  | nil => exact fun e member => absurd member List.not_mem_nil
  | cons b bs ih =>
    intro e member
    rcases List.mem_cons.mp member with rfl | later
    · exact ⟨i, rfl, Nat.lt_add_of_pos_right (Nat.succ_pos _)⟩
    · obtain ⟨j, store, before⟩ := ih e later
      exact ⟨j, store, by rw [List.length_cons]; omega⟩

/-- The text that a call of `snprintf` adds: none if it fails. -/
def Printed.added (printed : Printed) : List Byte :=
  if printed.ret > 0 then printed.text else []

theorem Printed.ret_of_pos {printed : Printed} (pos : printed.ret > 0) :
    printed.ret = printed.text.length := by
  unfold Printed.ret at pos ⊢
  split at pos
  · cases pos
  · next fine => rw [if_neg fine]

/-- **One call of `snprintf`.** -/
theorem snprintf_saturated {text : List Byte}
    (filled : Saturated (RVM_LOG_SIZE - 1) buf.get offset text) (printed : Printed) :
    Saturated (RVM_LOG_SIZE - 1) (snprintf buf offset printed).val.2.get
      (advance offset (snprintf buf offset printed).val.1) (text ++ printed.added) := by
  have size : RVM_LOG_SIZE = 1024 := rfl
  have low := filled.offset_le
  have room : offset + (printed.text.take (RVM_LOG_SIZE - offset - 1) ++ [0]).length ≤
      RVM_LOG_SIZE := by
    rw [List.length_append, List.length_take, List.length_singleton]
    omega
  have get : ∀ j, (snprintf buf offset printed).val.2.get j = _ := get_storeBytes room
  have kept : ∀ j < offset, (snprintf buf offset printed).val.2.get j = buf.get j :=
    fun j before => (get j).trans (if_neg (Nat.not_le.mpr before))
  show Saturated _ _ (advance offset printed.ret) _
  unfold advance Printed.added
  by_cases pos : printed.ret > 0
  · have length := Printed.ret_of_pos pos
    rw [if_pos pos, if_pos pos, length, Int.toNat_natCast]
    refine filled.append ?_ kept fun j before => ?_
    · split <;> omega
    · have inside : j < RVM_LOG_SIZE - offset - 1 ∧ j < printed.text.length := by
        split at before <;> omega
      have stored : (printed.text.take (RVM_LOG_SIZE - offset - 1) ++ [0])[j]? =
          printed.text[j]? := by
        rw [List.getElem?_append_left, List.getElem?_take, if_pos inside.1]
        rw [List.length_take]
        exact Nat.lt_min.mpr inside
      rw [get, if_pos (Nat.le_add_right _ _), Nat.add_sub_cancel_left, stored,
        List.getElem?_eq_getElem inside.2, Option.getD_some]
  · rw [if_neg pos, if_neg pos]
    exact filled.append (Nat.min_eq_left low).symm kept
      fun j before => absurd before (Nat.not_lt.mpr (Nat.le_add_right _ _))

theorem snprintf_events (inside : offset < RVM_LOG_SIZE) (printed : Printed) :
    ∀ e ∈ (snprintf buf offset printed).events, ∃ j, e = .store j ∧ j < RVM_LOG_SIZE := by
  intro e member
  rw [snprintf, Traced.events_bind, Traced.events_pure, List.append_nil] at member
  obtain ⟨j, store, before⟩ := storeBytes_events e member
  rw [List.length_append, List.length_take, List.length_singleton] at before
  exact ⟨j, store, by omega⟩

/-- **The newline.** -/
theorem newline_saturated {text : List Byte}
    (filled : Saturated (RVM_LOG_SIZE - 1) buf.get offset text) :
    Saturated (RVM_LOG_SIZE - 1) (storeNewline buf offset).val.2.get (storeNewline buf offset).val.1
      (text ++ [chr '\n']) := by
  have size : RVM_LOG_SIZE = 1024 := rfl
  have low := filled.offset_le
  unfold storeNewline
  split
  · next room =>
    refine filled.append (Nat.min_eq_left room).symm (fun j before => ?_) fun j before => ?_
    · exact (ByteStore.get_set _ _ _ (by omega)).trans (if_neg (Nat.ne_of_lt before))
    · obtain rfl : j = 0 := Nat.lt_one_iff.mp (Nat.lt_of_add_lt_add_left before)
      exact (congrArg some ((ByteStore.get_set _ _ _ (by omega)).trans (if_pos rfl))).symm
  · refine filled.append ?_ (fun _ _ => rfl)
      fun j before => absurd before (Nat.not_lt.mpr (Nat.le_add_right _ _))
    show offset = min (offset + 1) _
    omega

theorem newline_events :
    ∀ e ∈ (storeNewline buf offset).events, ∃ j, e = .store j ∧ j < RVM_LOG_SIZE := by
  unfold storeNewline
  split
  · next room =>
    intro e member
    exact ⟨offset, List.mem_singleton.mp member, Nat.lt_of_lt_of_le room (Nat.sub_le _ _)⟩
  · exact fun e member => absurd member List.not_mem_nil

end Buffer

/-! ## Records -/

/-- The line of a call: the prefix and the message. -/
def LogCall.text (debug : Bool) (call : LogCall) : List Byte :=
  let head : Printed := ⟨logPrefix debug call.timebuf call.level call.file call.line, false⟩
  head.added ++ call.message.added

/-- What a call leaves on the standard error. -/
def LogCall.record (debug : Bool) (call : LogCall) : List Byte :=
  (call.text debug ++ [chr '\n']).take (RVM_LOG_SIZE - 1)

/-- **One call of `rvm_log`**: stores inside the buffer, one write of the record, and an `abort` at
the level FATAL. -/
theorem rvmLog_events (debug : Bool) (buf : ByteStore RVM_LOG_SIZE) {call : LogCall}
    (shown : call.shown debug = true) :
    ∃ stores, (∀ e ∈ stores, ∃ j, e = .store j ∧ j < RVM_LOG_SIZE) ∧
      (rvmLog debug buf call).events = stores ++ .write (call.record debug) ::
        (if call.level = .fatal then [.abort] else []) := by
  let first := snprintf buf 0 ⟨logPrefix debug call.timebuf call.level call.file call.line, false⟩
  let second := snprintf first.val.2 (advance 0 first.val.1) call.message
  let third := storeNewline second.val.2 (advance (advance 0 first.val.1) second.val.1)
  have events : (rvmLog debug buf call).events = first.events ++ (second.events ++ (third.events ++
      .write ((List.range third.val.1).map third.val.2.get) ::
        (if call.level = .fatal then [.abort] else []))) := by
    unfold rvmLog
    rw [shown]
    by_cases fatal : call.level = .fatal
    · rw [if_pos fatal, if_pos fatal]
      rfl
    · rw [if_neg fatal, if_neg fatal]
      rfl
  have head : Saturated _ first.val.2.get (advance 0 first.val.1) _ :=
    snprintf_saturated (@Saturated.nil Byte (RVM_LOG_SIZE - 1) buf.get) _
  have message : Saturated _ second.val.2.get _ _ := snprintf_saturated head call.message
  have line : Saturated _ third.val.2.get third.val.1 _ := newline_saturated message
  refine ⟨first.events ++ (second.events ++ third.events), ?_, ?_⟩
  · simp only [List.forall_mem_append]
    exact ⟨snprintf_events (Nat.zero_lt_succ 1023) _,
      snprintf_events (Nat.lt_succ_of_le head.offset_le) _, newline_events⟩
  · rw [events, line.front]
    simp only [LogCall.record, LogCall.text, List.nil_append, List.append_assoc]

/-! ## Processes -/

/-- The bytes on the standard error. -/
def standardError (events : List LogEvent) : List Byte :=
  events.flatMap fun
    | .write bytes => bytes
    | _ => []

/-- The calls that write: those that are shown, up to the first one at the level FATAL. -/
def writingCalls (debug : Bool) : List LogCall → List LogCall
  | [] => []
  | call :: calls =>
    (if call.shown debug then [call] else []) ++
      if call.level = .fatal then [] else writingCalls debug calls

theorem mem_of_mem_writingCalls {debug : Bool} {call : LogCall} {calls : List LogCall}
    (writes : call ∈ writingCalls debug calls) : call ∈ calls := by
  induction calls with
  | nil => exact writes
  | cons first calls ih =>
    rcases List.mem_append.mp writes with here | later
    · split at here
      · exact List.mem_cons.mpr (.inl (List.mem_singleton.mp here))
      · exact absurd here List.not_mem_nil
    · split at later
      · exact absurd later List.not_mem_nil
      · exact List.mem_cons_of_mem _ (ih later)

/-- What a call that is dropped, or one that is not, does to the standard error. -/
theorem rvmLog_standardError (debug : Bool) (buf : ByteStore RVM_LOG_SIZE) (call : LogCall) :
    standardError (rvmLog debug buf call).events =
        (if call.shown debug then [call] else []).flatMap (LogCall.record debug) ∧
      ∀ i, .store i ∈ (rvmLog debug buf call).events → i < RVM_LOG_SIZE := by
  cases shown : call.shown debug with
  | false =>
    have none : rvmLog debug buf call = pure () := by
      unfold rvmLog
      rw [shown]
      rfl
    rw [none]
    exact ⟨rfl, fun i member => absurd member List.not_mem_nil⟩
  | true =>
    obtain ⟨stores, inside, events⟩ := rvmLog_events debug buf shown
    have quiet : standardError stores = [] :=
      List.flatMap_eq_nil_iff.mpr fun e member => by
        obtain ⟨j, rfl, _⟩ := inside e member
        rfl
    have tail : standardError (if call.level = .fatal then [.abort] else []) = [] := by
      split <;> rfl
    rw [events]
    constructor
    · rw [standardError, List.flatMap_append, ← standardError, quiet, List.nil_append,
        List.flatMap_cons, ← standardError, tail]
      rfl
    · intro i member
      rcases List.mem_append.mp member with store | rest
      · obtain ⟨j, same, before⟩ := inside _ store
        cases same
        exact before
      · rcases List.mem_cons.mp rest with write | abort
        · cases write
        · split at abort <;> simp at abort

/-- **Any calls of `rvm_log`.** -/
theorem rvmLogs_standardError (debug : Bool) (calls : List (ByteStore RVM_LOG_SIZE × LogCall)) :
    standardError (rvmLogs debug calls).events =
        (writingCalls debug (calls.map Prod.snd)).flatMap (LogCall.record debug) ∧
      ∀ i, .store i ∈ (rvmLogs debug calls).events → i < RVM_LOG_SIZE := by
  induction calls with
  | nil => exact ⟨rfl, fun i member => absurd member List.not_mem_nil⟩
  | cons call calls ih =>
    obtain ⟨buf, call⟩ := call
    obtain ⟨bytes, stores⟩ := rvmLog_standardError debug buf call
    rw [rvmLogs, Traced.events_bind, standardError, List.flatMap_append, ← standardError, bytes,
      List.map_cons, writingCalls, List.flatMap_append]
    by_cases fatal : call.level = .fatal
    · rw [if_pos fatal, if_neg (not_not.mpr fatal)]
      refine ⟨rfl, fun i member => stores i ?_⟩
      rwa [Traced.events_pure, List.append_nil] at member
    · rw [if_neg fatal, if_pos fatal]
      refine ⟨congrArg _ ih.1, fun i member => ?_⟩
      rcases List.mem_append.mp member with here | later
      · exact stores i here
      · exact ih.2 i later

/-- **The log, line by line.** Whatever calls of `rvm_log` a process makes, they store inside their
buffers, and the standard error, if it takes every write in full, holds their records, each cut off
at 1023 bytes. Where no text has a newline in it, the records can be told apart as lines exactly
when every text is shorter than that. -/
theorem log_lines_iff (debug : Bool) (calls : List (ByteStore RVM_LOG_SIZE × LogCall)) :
    (∀ i, .store i ∈ (rvmLogs debug calls).events → i < RVM_LOG_SIZE) ∧
      standardError (rvmLogs debug calls).events =
        (writingCalls debug (calls.map Prod.snd)).flatMap (LogCall.record debug) ∧
      ((∀ call ∈ calls, chr '\n' ∉ call.2.text debug) →
        ((standardError (rvmLogs debug calls).events).splitOn (chr '\n') =
            (writingCalls debug (calls.map Prod.snd)).map (LogCall.text debug) ++ [[]] ↔
          ∀ call ∈ writingCalls debug (calls.map Prod.snd),
            (call.text debug).length < RVM_LOG_SIZE - 1)) := by
  obtain ⟨bytes, stores⟩ := rvmLogs_standardError debug calls
  refine ⟨stores, bytes, fun plain => ?_⟩
  have lines : ∀ line ∈ (writingCalls debug (calls.map Prod.snd)).map (LogCall.text debug),
      chr '\n' ∉ line := by
    rw [List.forall_mem_map]
    intro call writes
    obtain ⟨entry, given, rfl⟩ := List.mem_map.mp (mem_of_mem_writingCalls writes)
    exact plain entry given
  have records := @splitOn_lines_iff Byte _ (chr '\n') (RVM_LOG_SIZE - 1) _ lines
  rw [List.flatMap_map, List.forall_mem_map] at records
  rw [bytes]
  exact records

/-- Two records of a release build, the first of them at a level that is dropped. -/
def loadedCalls : List (ByteStore RVM_LOG_SIZE × LogCall) :=
  [(fun _ => 0, ⟨bytesOf "12:00:00", .debug, bytesOf "cpu.c", 54, ⟨bytesOf "EXECUTING", false⟩⟩),
    (fun _ => 0, ⟨bytesOf "12:00:00", .info, bytesOf "vm.c", 50, ⟨bytesOf "loaded", false⟩⟩)]

theorem log_lines_iff_loaded :
    (standardError (rvmLogs false loadedCalls).events).splitOn (chr '\n') =
        (writingCalls false (loadedCalls.map Prod.snd)).map (LogCall.text false) ++ [[]] ↔
      ∀ call ∈ writingCalls false (loadedCalls.map Prod.snd),
        (call.text false).length < RVM_LOG_SIZE - 1 :=
  (log_lines_iff false loadedCalls).2.2 (by decide +kernel)

end RocketVm
