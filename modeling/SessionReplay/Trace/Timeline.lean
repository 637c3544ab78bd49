import SessionReplay.Json
import SessionReplay.Trace.Event

/-!
A recorded trace as a time line, in the JSON format of trace viewers. A tick is a slice that lasts
until the next tick begins or the recording ends; everything else is an instant or a counter
inside it. A slice ends at the latest time that its emissions gave. Times are in microseconds.
-/

namespace SessionReplay.Trace

def Stage.title : Stage → String
  | kind => "Kind"
  | geometry => "Geometry"
  | paint => "Paint"
  | content => "Content"
  | unknownKind => "UnknownKind"

def Limit.title : Limit → String
  | depth => "Depth"
  | nodeBudget => "NodeBudget"

def EmissionKind.title : EmissionKind → String
  | page => "Meta"
  | snapshot => "FullSnapshot"
  | incremental => "Incremental"
  | unchanged => "Unchanged"
  | pointer => "Pointer"

def Reason.title : Reason → String
  | noPriorTree => "NoPriorTree"
  | structuralMismatch => "StructuralMismatch"
  | mutationOverflow => "MutationOverflow"
  | identityExhausted => "IdentityExhausted"

namespace Timeline

inductive Phase where
  | begin
  | finish
  | instant
  | counter
deriving DecidableEq, Repr

def Phase.code : Phase → String
  | begin => "B"
  | finish => "E"
  | instant => "i"
  | counter => "C"

structure Entry where
  phase : Phase
  name : String
  category : String
  micros : Nat
  /-- In the order of the names. -/
  details : List (String × Json)

/-- Members are in the order of their names. Instants belong to the thread. -/
def Entry.toJson (entry : Entry) : Json :=
  .object ([("args", .object entry.details), ("cat", .string entry.category),
      ("name", .string entry.name), ("ph", .string entry.phase.code), ("pid", .integer 0)] ++
    (if entry.phase = .instant then [("s", .string "t")] else []) ++
    [("tid", .integer 0), ("ts", .integer entry.micros)])

/-- Stops at the greatest 64 bit number. -/
def micros (millis : Nat) : Nat := min (millis * 1000) (UInt64.size - 1)

def beginTick (tick : UInt64) (millis : Nat) : Entry :=
  ⟨.begin, "Tick", "Capture", micros millis, [("tick_index", .integer tick.toNat)]⟩

def endTick (tick : UInt64) (millis : Nat) : Entry :=
  ⟨.finish, "Tick", "Capture", micros millis, [("tick_index", .integer tick.toNat)]⟩

/-- The entries of an event inside a slice, when the latest time was `now`. -/
def inside (now : Nat) : Event → List Entry
  | .tickBegin .. => []
  | .failure tick view stage =>
      [⟨.instant, "IntrospectionFailure", "Capture", micros now,
        [("stage", .string stage.title), ("tick_index", .integer tick.toNat),
         ("view", .integer view.val.toNat)]⟩]
  | .truncation tick view limit depth =>
      [⟨.instant, "Truncation", "Capture", micros now,
        [("depth", .integer depth.toNat), ("limit", .string limit.title),
         ("tick_index", .integer tick.toNat), ("view", .integer view.val.toNat)]⟩]
  | .capture tick nodes maxDepth placeholders truncated =>
      ⟨.counter, "Nodes", "Summary", micros now,
        [("nodes", .integer nodes.toNat), ("placeholders", .integer placeholders.toNat)]⟩ ::
      if truncated then
        [⟨.instant, "Truncated", "Summary", micros now,
          [("max_depth", .integer maxDepth.toNat), ("tick_index", .integer tick.toNat)]⟩]
      else []
  | .identity _ live evicted _ =>
      [⟨.counter, "Identities", "Summary", micros now,
        [("evicted", .integer evicted.toNat), ("live", .integer live.toNat)]⟩]
  | .comparison _ removes adds texts attributes =>
      [⟨.counter, "Mutations", "Summary", micros now,
        [("adds", .integer adds.toNat), ("attributes", .integer attributes.toNat),
         ("removes", .integer removes.toNat), ("texts", .integer texts.toNat)]⟩]
  | .emission tick time kind reason =>
      [⟨.instant, kind.title, "Emit", micros time.millis.toNat,
        [("reason", .stringOrNull (reason.map Reason.title)),
         ("tick_index", .integer tick.toNat)]⟩]

/-- The latest time after an event. -/
def advance (now : Nat) : Event → Nat
  | .tickBegin _ time => time.millis.toNat
  | .emission _ time _ _ => max now time.millis.toNat
  | _ => now

/-- Ends the slice that is open, if any. -/
def close (now : Nat) : Option UInt64 → List Entry
  | some tick => [endTick tick now]
  | none => []

/-- The entries from here on, given the latest time and the tick whose slice is open. -/
def entriesFrom (now : Nat) (current : Option UInt64) : List Event → List Entry
  | [] => close now current
  | .tickBegin tick time :: events =>
      close now current ++
        beginTick tick time.millis.toNat :: entriesFrom time.millis.toNat (some tick) events
  | event :: events => inside now event ++ entriesFrom (advance now event) current events

def entries (events : List Event) : List Entry := entriesFrom 0 none events

def text (events : List Event) : String :=
  (Json.array ((entries events).map Entry.toJson)).pretty

end Timeline

end SessionReplay.Trace
