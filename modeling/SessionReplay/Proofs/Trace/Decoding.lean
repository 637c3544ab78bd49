import SessionReplay.Trace.Recording

/-!
Reading a recording that may have been cut off anywhere. Every record is read in the same way
whatever comes after it, and nothing is read off a part of it. So a cut loses the records that it
reaches into and those behind them, and no others.
-/

namespace SessionReplay.Trace

/-- A reader gets this value off these bytes whatever comes after them, and nothing off a part of
them. -/
structure Reads {α : Type} (reader : Bytes → Option (α × Bytes)) (bytes : Bytes) (value : α) :
    Prop where
  whole : ∀ rest, reader (bytes ++ rest) = some (value, rest)
  part : ∀ room, room < bytes.length → reader (bytes.take room) = none

namespace Reads

variable {α β : Type} {reader : Bytes → Option (α × Bytes)} {bytes : Bytes} {value : α}

theorem map (reads : Reads reader bytes value) (f : α → β) :
    Reads (fun input => (reader input).map fun (value, rest) => (f value, rest)) bytes
      (f value) where
  whole rest := by rw [reads.whole]; rfl
  part room short := by rw [reads.part room short]; rfl

variable {next : α × Bytes → Option (β × Bytes)} {result : β}

theorem bind {more : Bytes} (first : Reads reader bytes value)
    (second : Reads (fun rest => next (value, rest)) more result) :
    Reads (fun input => (reader input).bind next) (bytes ++ more) result where
  whole rest := by
    rw [List.append_assoc, first.whole]
    exact second.whole rest
  part room short := by
    by_cases inside : room < bytes.length
    · rw [List.take_append_of_le_length (Nat.le_of_lt inside), first.part room inside]
      rfl
    · obtain ⟨beyond, rfl⟩ := Nat.exists_eq_add_of_le (Nat.le_of_not_lt inside)
      rw [List.take_length_add_append, first.whole]
      apply second.part
      rw [List.length_append] at short
      omega

/-- The last field of a record, with which the record is made. -/
theorem last (reads : Reads reader bytes value)
    (made : ∀ rest, next (value, rest) = some (result, rest)) :
    Reads (fun input => (reader input).bind next) bytes result where
  whole rest := by
    rw [reads.whole]
    exact made rest
  part room short := by rw [reads.part room short]; rfl

end Reads

theorem reads_byte (byte : UInt8) : Reads readByte [byte] byte where
  whole rest := rfl
  part room short := by
    rw [Nat.lt_one_iff.mp short]
    rfl

theorem reads_word (count value : Nat) :
    Reads (readWord count) (littleEndian count value) (value % Nat.pow 256 count) where
  whole rest := readWord_littleEndian count value rest
  part room short := by
    rw [littleEndian_length] at short
    rw [readWord, if_neg]
    rw [List.length_take]
    omega

theorem reads_32 (value : UInt32) : Reads read32 (bytes32 value) value := by
  have word := (reads_word 4 value.toNat).map UInt32.ofNat
  rwa [Nat.mod_eq_of_lt value.toNat_lt, UInt32.ofNat_toNat] at word

theorem reads_64 (value : UInt64) : Reads read64 (bytes64 value) value := by
  have word := (reads_word 8 value.toNat).map UInt64.ofNat
  rwa [Nat.mod_eq_of_lt value.toNat_lt, UInt64.ofNat_toNat] at word

theorem Stage.ofCode_code (stage : Stage) : ofCode stage.code = stage := by
  cases stage <;> rfl

theorem Limit.ofCode_code (limit : Limit) : ofCode limit.code = limit := by
  cases limit <;> rfl

theorem EmissionKind.ofCode_code (kind : EmissionKind) : ofCode kind.code = kind := by
  cases kind <;> rfl

theorem Reason.ofCode_code (reason : Option Reason) : ofCode (code reason) = reason := by
  rcases reason with _ | reason
  · rfl
  · cases reason <;> rfl

theorem flagCode_ne_zero (flag : Bool) : decide (flagCode flag ≠ 0) = flag := by
  cases flag <;> rfl

namespace Event

theorem reads_tickBegin (tick : UInt64) (time : Timestamp) :
    Reads readTickBegin (bytes64 tick ++ bytes64 time.millis) (tickBegin tick time) := by
  refine (reads_64 tick).bind ((reads_64 time.millis).last ?_)
  intro rest
  rfl

theorem reads_failure (tick : UInt64) (view : ViewHandle) (stage : Stage) :
    Reads readFailure (bytes64 tick ++ (bytes64 view.val ++ [stage.code]))
      (failure tick view stage) := by
  refine (reads_64 tick).bind ((reads_64 view.val).bind ((reads_byte stage.code).last ?_))
  intro rest
  simp only [Stage.ofCode_code]

theorem reads_truncation (tick : UInt64) (view : ViewHandle) (limit : Limit) (depth : UInt32) :
    Reads readTruncation
      (bytes64 tick ++ (bytes64 view.val ++ ([limit.code] ++ bytes32 depth)))
      (truncation tick view limit depth) := by
  refine (reads_64 tick).bind ((reads_64 view.val).bind
    ((reads_byte limit.code).bind ((reads_32 depth).last ?_)))
  intro rest
  simp only [Limit.ofCode_code]

theorem reads_capture (tick : UInt64) (nodes maxDepth placeholders : UInt32) (truncated : Bool) :
    Reads readCapture
      (bytes64 tick ++ (bytes32 nodes ++ (bytes32 maxDepth ++ (bytes32 placeholders ++
        [flagCode truncated]))))
      (capture tick nodes maxDepth placeholders truncated) := by
  refine (reads_64 tick).bind ((reads_32 nodes).bind ((reads_32 maxDepth).bind
    ((reads_32 placeholders).bind ((reads_byte (flagCode truncated)).last ?_))))
  intro rest
  simp only [flagCode_ne_zero]

theorem reads_identity (tick : UInt64) (live evicted : UInt32) (next : NodeId) :
    Reads readIdentity
      (bytes64 tick ++ (bytes32 live ++ (bytes32 evicted ++ bytes32 next.val)))
      (identity tick live evicted next) := by
  refine (reads_64 tick).bind ((reads_32 live).bind
    ((reads_32 evicted).bind ((reads_32 next.val).last ?_)))
  intro rest
  rfl

theorem reads_comparison (tick : UInt64) (removes adds texts attributes : UInt32) :
    Reads readComparison
      (bytes64 tick ++ (bytes32 removes ++ (bytes32 adds ++ (bytes32 texts ++
        bytes32 attributes))))
      (comparison tick removes adds texts attributes) := by
  refine (reads_64 tick).bind ((reads_32 removes).bind ((reads_32 adds).bind
    ((reads_32 texts).bind ((reads_32 attributes).last ?_))))
  intro rest
  rfl

theorem reads_emission (tick : UInt64) (time : Timestamp) (kind : EmissionKind)
    (reason : Option Reason) :
    Reads readEmission
      (bytes64 tick ++ (bytes64 time.millis ++ ([kind.code] ++ [Reason.code reason])))
      (emission tick time kind reason) := by
  refine (reads_64 tick).bind ((reads_64 time.millis).bind
    ((reads_byte kind.code).bind ((reads_byte (Reason.code reason)).last ?_)))
  intro rest
  simp only [EmissionKind.ofCode_code, Reason.ofCode_code]

theorem reads_tagged {tag : UInt8} {reader : Bytes → Option (Event × Bytes)} {bytes : Bytes}
    {event : Event} (known : reader? tag = some reader) (reads : Reads reader bytes event) :
    Reads read (tag :: bytes) event where
  whole rest := by
    rw [List.cons_append, read, known]
    exact reads.whole rest
  part room short := by
    cases room with
    | zero => rfl
    | succ room =>
        rw [List.take_succ_cons, read, known]
        exact reads.part room (Nat.lt_of_succ_lt_succ short)

/-- The record of an event is read as this event. -/
theorem reads_encode (event : Event) : Reads read event.encode event := by
  cases event with
  | tickBegin tick time => exact reads_tagged rfl (reads_tickBegin tick time)
  | failure tick view stage =>
      rw [encode, List.append_assoc]
      exact reads_tagged rfl (reads_failure tick view stage)
  | truncation tick view limit depth =>
      rw [encode, List.append_assoc, List.append_assoc]
      exact reads_tagged rfl (reads_truncation tick view limit depth)
  | capture tick nodes maxDepth placeholders truncated =>
      simp only [encode, List.append_assoc]
      exact reads_tagged rfl (reads_capture tick nodes maxDepth placeholders truncated)
  | identity tick live evicted next =>
      simp only [encode, List.append_assoc]
      exact reads_tagged rfl (reads_identity tick live evicted next)
  | comparison tick removes adds texts attributes =>
      simp only [encode, List.append_assoc]
      exact reads_tagged rfl (reads_comparison tick removes adds texts attributes)
  | emission tick time kind reason =>
      rw [encode, List.append_assoc]
      exact reads_tagged rfl (reads_emission tick time kind reason)

end Event

theorem decode_of_read {bytes rest : Bytes} {event : Event}
    (read : Event.read bytes = some (event, rest)) : decode bytes = event :: decode rest := by
  rw [decode]
  split
  case h_1 none => simp [read] at none
  case h_2 other suffix found =>
    rw [read] at found
    cases found
    rfl

theorem decode_of_not_read {bytes : Bytes} (none : Event.read bytes = none) :
    decode bytes = [] := by
  rw [decode]
  split
  case h_1 => rfl
  case h_2 event rest found => simp [none] at found

/-- Where the record of the event at this place ends. -/
def recordEnd (events : List Event) (place : Nat) : Nat :=
  (encode (events.take (place + 1))).length

theorem recordEnd_zero (event : Event) (events : List Event) :
    recordEnd (event :: events) 0 = event.encode.length := by
  simp [recordEnd, encode]

theorem recordEnd_succ (event : Event) (events : List Event) (place : Nat) :
    recordEnd (event :: events) (place + 1) = event.encode.length + recordEnd events place := by
  simp [recordEnd, encode]

theorem recordEnd_le (events : List Event) (place : Nat) :
    recordEnd events place ≤ (encode events).length := by
  have parts : encode (events.take (place + 1)) ++ encode (events.drop (place + 1)) =
      encode events := by
    rw [encode, encode, ← List.flatMap_append, List.take_append_drop]
    rfl
  rw [← parts, List.length_append]
  exact Nat.le_add_right _ _

/-- A cut behind the first record leaves it whole. -/
theorem decode_take_later (event : Event) (events : List Event) (beyond : Nat) :
    decode ((encode (event :: events)).take (event.encode.length + beyond)) =
      event :: decode ((encode events).take beyond) := by
  rw [encode, List.flatMap_cons, List.take_length_add_append]
  exact decode_of_read (event.reads_encode.whole _)

/-- A cut inside the first record leaves nothing to read. -/
theorem decode_take_sooner (event : Event) (events : List Event) {room : Nat}
    (short : room < event.encode.length) : decode ((encode (event :: events)).take room) = [] := by
  rw [encode, List.flatMap_cons, List.take_append_of_le_length (Nat.le_of_lt short)]
  exact decode_of_not_read (event.reads_encode.part room short)

theorem getElem?_decode_take (events : List Event) (room place : Nat) :
    (decode ((encode events).take room))[place]? =
      if recordEnd events place ≤ room then events[place]? else none := by
  induction events generalizing room place with
  | nil =>
      rw [encode, List.flatMap_nil, List.take_nil, decode_of_not_read rfl]
      simp
  | cons event events induction =>
      by_cases inside : event.encode.length ≤ room
      · obtain ⟨beyond, rfl⟩ := Nat.exists_eq_add_of_le inside
        rw [decode_take_later]
        cases place with
        | zero => rw [recordEnd_zero, if_pos inside]; rfl
        | succ place =>
            rw [recordEnd_succ, List.getElem?_cons_succ, List.getElem?_cons_succ]
            simp only [Nat.add_le_add_iff_left]
            exact induction beyond place
      · have outside : ¬recordEnd (event :: events) place ≤ room := by
          cases place with
          | zero => rw [recordEnd_zero]; exact inside
          | succ place => rw [recordEnd_succ]; omega
        rw [decode_take_sooner event events (Nat.lt_of_not_le inside), if_neg outside]
        rfl

/-- What is left of a recording after a cut gives back the events whose records lie inside it, each
at its place, and nothing else. -/
theorem decode_cut (events : List Event) (room : Nat) :
    (∀ place, (decode ((encode events).take room))[place]? =
      if recordEnd events place ≤ room then events[place]? else none) ∧
      decode (encode events) = events := by
  constructor
  · exact getElem?_decode_take events room
  · apply List.ext_getElem?
    intro place
    have whole := getElem?_decode_take events (encode events).length place
    rwa [List.take_length, if_pos (recordEnd_le events place)] at whole

end SessionReplay.Trace
