import SessionReplay.Trace.Event

/-!
The binary recording of a trace: one record after the other, each a tag and then the fields of an
event in little-endian order. Reading stops at the first byte that is no tag, and at a record that
is cut short. A byte that stands for a choice takes the last choice when it is out of range.
-/

namespace SessionReplay.Trace

abbrev Bytes := List UInt8

/-- The last `count` bytes of a number, the lowest first. -/
def littleEndian : (count : Nat) → Nat → Bytes
  | 0, _ => []
  | count + 1, value => UInt8.ofNat value :: littleEndian count (value / 256)

def ofLittleEndian : Bytes → Nat
  | [] => 0
  | byte :: bytes => byte.toNat + 256 * ofLittleEndian bytes

def bytes32 (value : UInt32) : Bytes := littleEndian 4 value.toNat

def bytes64 (value : UInt64) : Bytes := littleEndian 8 value.toNat

def Stage.code : Stage → UInt8
  | kind => 0
  | geometry => 1
  | paint => 2
  | content => 3
  | unknownKind => 4

def Stage.ofCode (code : UInt8) : Stage :=
  if code = 0 then kind else if code = 1 then geometry else if code = 2 then paint
  else if code = 3 then content else unknownKind

def Limit.code : Limit → UInt8
  | depth => 0
  | nodeBudget => 1

def Limit.ofCode (code : UInt8) : Limit := if code = 0 then depth else nodeBudget

def EmissionKind.code : EmissionKind → UInt8
  | page => 0
  | snapshot => 1
  | incremental => 2
  | unchanged => 3
  | pointer => 4

def EmissionKind.ofCode (code : UInt8) : EmissionKind :=
  if code = 0 then page else if code = 1 then snapshot else if code = 2 then incremental
  else if code = 3 then unchanged else pointer

def Reason.code : Option Reason → UInt8
  | none => 0
  | some noPriorTree => 1
  | some structuralMismatch => 2
  | some mutationOverflow => 3
  | some identityExhausted => 4

def Reason.ofCode (code : UInt8) : Option Reason :=
  if code = 0 then none else if code = 1 then some noPriorTree
  else if code = 2 then some structuralMismatch else if code = 3 then some mutationOverflow
  else some identityExhausted

def flagCode (flag : Bool) : UInt8 := if flag then 1 else 0

def Event.encode : Event → Bytes
  | tickBegin tick time => 1 :: (bytes64 tick ++ bytes64 time.millis)
  | failure tick view stage => 2 :: (bytes64 tick ++ bytes64 view.val ++ [stage.code])
  | truncation tick view limit depth =>
      3 :: (bytes64 tick ++ bytes64 view.val ++ [limit.code] ++ bytes32 depth)
  | capture tick nodes maxDepth placeholders truncated =>
      4 :: (bytes64 tick ++ bytes32 nodes ++ bytes32 maxDepth ++ bytes32 placeholders ++
        [flagCode truncated])
  | identity tick live evicted next =>
      5 :: (bytes64 tick ++ bytes32 live ++ bytes32 evicted ++ bytes32 next.val)
  | comparison tick removes adds texts attributes =>
      6 :: (bytes64 tick ++ bytes32 removes ++ bytes32 adds ++ bytes32 texts ++ bytes32 attributes)
  | emission tick time kind reason =>
      7 :: (bytes64 tick ++ bytes64 time.millis ++ [kind.code, Reason.code reason])

def encode (events : List Event) : Bytes := events.flatMap Event.encode

def readByte : Bytes → Option (UInt8 × Bytes)
  | [] => none
  | byte :: rest => some (byte, rest)

def readWord (count : Nat) (bytes : Bytes) : Option (Nat × Bytes) :=
  if count ≤ bytes.length then some (ofLittleEndian (bytes.take count), bytes.drop count) else none

def read32 (bytes : Bytes) : Option (UInt32 × Bytes) :=
  (readWord 4 bytes).map fun (value, rest) => (UInt32.ofNat value, rest)

def read64 (bytes : Bytes) : Option (UInt64 × Bytes) :=
  (readWord 8 bytes).map fun (value, rest) => (UInt64.ofNat value, rest)

namespace Event

def readTickBegin (bytes : Bytes) : Option (Event × Bytes) := do
  let (tick, bytes) ← read64 bytes
  let (time, bytes) ← read64 bytes
  some (tickBegin tick ⟨time⟩, bytes)

def readFailure (bytes : Bytes) : Option (Event × Bytes) := do
  let (tick, bytes) ← read64 bytes
  let (view, bytes) ← read64 bytes
  let (stage, bytes) ← readByte bytes
  some (failure tick ⟨view⟩ (.ofCode stage), bytes)

def readTruncation (bytes : Bytes) : Option (Event × Bytes) := do
  let (tick, bytes) ← read64 bytes
  let (view, bytes) ← read64 bytes
  let (limit, bytes) ← readByte bytes
  let (depth, bytes) ← read32 bytes
  some (truncation tick ⟨view⟩ (.ofCode limit) depth, bytes)

def readCapture (bytes : Bytes) : Option (Event × Bytes) := do
  let (tick, bytes) ← read64 bytes
  let (nodes, bytes) ← read32 bytes
  let (maxDepth, bytes) ← read32 bytes
  let (placeholders, bytes) ← read32 bytes
  let (truncated, bytes) ← readByte bytes
  some (capture tick nodes maxDepth placeholders (truncated ≠ 0), bytes)

def readIdentity (bytes : Bytes) : Option (Event × Bytes) := do
  let (tick, bytes) ← read64 bytes
  let (live, bytes) ← read32 bytes
  let (evicted, bytes) ← read32 bytes
  let (next, bytes) ← read32 bytes
  some (identity tick live evicted ⟨next⟩, bytes)

def readComparison (bytes : Bytes) : Option (Event × Bytes) := do
  let (tick, bytes) ← read64 bytes
  let (removes, bytes) ← read32 bytes
  let (adds, bytes) ← read32 bytes
  let (texts, bytes) ← read32 bytes
  let (attributes, bytes) ← read32 bytes
  some (comparison tick removes adds texts attributes, bytes)

def readEmission (bytes : Bytes) : Option (Event × Bytes) := do
  let (tick, bytes) ← read64 bytes
  let (time, bytes) ← read64 bytes
  let (kind, bytes) ← readByte bytes
  let (reason, bytes) ← readByte bytes
  some (emission tick ⟨time⟩ (.ofCode kind) (Reason.ofCode reason), bytes)

/-- The reader for the record with a given tag. -/
def reader? (tag : UInt8) : Option (Bytes → Option (Event × Bytes)) :=
  if tag = 1 then some readTickBegin else if tag = 2 then some readFailure
  else if tag = 3 then some readTruncation else if tag = 4 then some readCapture
  else if tag = 5 then some readIdentity else if tag = 6 then some readComparison
  else if tag = 7 then some readEmission else none

def read : Bytes → Option (Event × Bytes)
  | [] => none
  | tag :: bytes => (reader? tag).bind (· bytes)

end Event

theorem littleEndian_length (count value : Nat) : (littleEndian count value).length = count := by
  induction count generalizing value with
  | zero => rfl
  | succ count induction => simp [littleEndian, induction]

theorem ofLittleEndian_littleEndian (count value : Nat) :
    ofLittleEndian (littleEndian count value) = value % Nat.pow 256 count := by
  induction count generalizing value with
  | zero => simp [littleEndian, ofLittleEndian, Nat.mod_one]
  | succ count induction =>
      simp only [littleEndian, ofLittleEndian, induction, UInt8.toNat_ofNat']
      exact (Nat.pow_succ' ▸ Nat.mod_mul).symm

theorem readWord_littleEndian (count value : Nat) (rest : Bytes) :
    readWord count (littleEndian count value ++ rest) = some (value % Nat.pow 256 count, rest) := by
  simp [readWord, littleEndian_length, ofLittleEndian_littleEndian]

theorem readByte_length {bytes rest : Bytes} {byte : UInt8}
    (decoded : readByte bytes = some (byte, rest)) : rest.length ≤ bytes.length := by
  cases bytes <;> simp_all [readByte]

theorem readWord_length {count value : Nat} {bytes rest : Bytes}
    (decoded : readWord count bytes = some (value, rest)) : rest.length ≤ bytes.length := by
  simp only [readWord] at decoded
  split at decoded <;> simp_all
  simp [← decoded.2]

theorem read32_length {bytes rest : Bytes} {value : UInt32}
    (decoded : read32 bytes = some (value, rest)) : rest.length ≤ bytes.length := by
  simp only [read32, Option.map_eq_some_iff, Prod.exists, Prod.mk.injEq] at decoded
  obtain ⟨word, suffix, taken, _, rfl⟩ := decoded
  exact readWord_length taken

theorem read64_length {bytes rest : Bytes} {value : UInt64}
    (decoded : read64 bytes = some (value, rest)) : rest.length ≤ bytes.length := by
  simp only [read64, Option.map_eq_some_iff, Prod.exists, Prod.mk.injEq] at decoded
  obtain ⟨word, suffix, taken, _, rfl⟩ := decoded
  exact readWord_length taken

/-- A record takes at least its tag. -/
theorem Event.read_length {bytes rest : Bytes} {event : Event}
    (decoded : Event.read bytes = some (event, rest)) : rest.length < bytes.length := by
  cases bytes with
  | nil => simp [Event.read] at decoded
  | cons tag bytes =>
      suffices shorter : rest.length ≤ bytes.length by simp; omega
      simp only [Event.read, Event.reader?] at decoded
      repeat' split at decoded
      all_goals
        simp only [Option.bind_some, Option.bind_none, reduceCtorEq, Event.readTickBegin,
          Event.readFailure, Event.readTruncation, Event.readCapture, Event.readIdentity,
          Event.readComparison, Event.readEmission, Option.bind_eq_bind, Option.bind_eq_some_iff,
          Prod.exists, Option.some.injEq, Prod.mk.injEq] at decoded
      all_goals grind [→ readByte_length, → read32_length, → read64_length]

def decode (bytes : Bytes) : List Event :=
  match _ : Event.read bytes with
  | none => []
  | some (event, rest) => event :: decode rest
termination_by bytes.length
decreasing_by exact Event.read_length ‹_›

end SessionReplay.Trace
