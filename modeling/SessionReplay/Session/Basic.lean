import SessionReplay.Document.Comparison
import SessionReplay.Session.Config

/-!
A recording session. While it is capturing, each tick looks at the views and sends what is new
since the tick before: everything at first, and later only the changes, unless these are too many
or the root is another. Pointers are sent for views that the last tick has seen.
-/

namespace SessionReplay.Session

inductive State where
  | idle
  | capturing
deriving DecidableEq, Inhabited, Repr

inductive TickOutcome where
  | idle
  | snapshot (reason : Trace.Reason)
  | incremental (records : Nat)
  | unchanged
deriving DecidableEq, Repr

end Session

structure Session where
  config : Session.Config
  registry : Identity.Registry := .new
  state : Session.State := .idle
  /-- The document as of the last tick. -/
  prior : Option (Tree Node) := none
  ticks : UInt64 := 0
  startedAt : Option Timestamp := none

namespace Session

/-- What an operation sends and reports. -/
structure Output where
  events : List Wire.Event := []
  trace : List Trace.Event := []

namespace Output

def append (first second : Output) : Output :=
  ⟨first.events ++ second.events, first.trace ++ second.trace⟩

instance : Append Output := ⟨append⟩

end Output

def isCapturing (session : Session) : Bool := session.state = .capturing

def start (now : Timestamp) (session : Session) : Session :=
  if session.isCapturing then session
  else { session with state := .capturing, startedAt := some now, prior := none }

def stop (session : Session) : Session :=
  { session with state := .idle, startedAt := none, prior := none }

/-- Forgets all ids and the last document, but goes on capturing. -/
def reset (session : Session) : Session :=
  { session with registry := session.registry.reset, prior := none }

/-- A length in whole pixels. -/
def pixels (length : Float) : UInt32 := length.round.toUInt32

def snapshotOutput (config : Config) (tick : UInt64) (now : Timestamp) (reason : Trace.Reason)
    (tree : Tree Node) : Output where
  events :=
    [Wire.encodePage config.href (pixels tree.data.frame.width) (pixels tree.data.frame.height)
        now,
     config.encoder.encodeSnapshot tree now]
  trace := [.emission tick now .page none, .emission tick now .snapshot (some reason)]

def snapshot (config : Config) (tick : UInt64) (now : Timestamp) (reason : Trace.Reason)
    (tree : Tree Node) : TickOutcome × Output :=
  (.snapshot reason, snapshotOutput config tick now reason tree)

def comparisonEvent (tick : UInt64) (counts : Record.Counts) : Trace.Event :=
  .comparison tick (Trace.capped counts.removes) (Trace.capped counts.adds)
    (Trace.capped counts.texts) (Trace.capped counts.attributes)

def unchangedOutput (tick : UInt64) (now : Timestamp) : Output :=
  { trace := [.emission tick now .unchanged none] }

/-- Sends the changes since the last tick. Changes of which nothing is left to send count as
none. -/
def increment (config : Config) (tick : UInt64) (now : Timestamp) (records : List Record)
    (tree : Tree Node) : TickOutcome × Output :=
  let compared : Output := { trace := [comparisonEvent tick (Record.count records)] }
  if records.isEmpty then (.unchanged, compared ++ unchangedOutput tick now)
  else if config.maxMutations < records.length then
    let (outcome, output) := snapshot config tick now .mutationOverflow tree
    (outcome, compared ++ output)
  else
    let event := config.encoder.encodeRecords records now
    if event.payload.isEmptyMutation then (.unchanged, compared ++ unchangedOutput tick now)
    else
      (.incremental records.length,
        compared ++ { events := [event], trace := [.emission tick now .incremental none] })

/-- What is sent for a new document when `prior` is the last one, if there is one. -/
def send (config : Config) (tick : UInt64) (now : Timestamp) (prior : Option (Tree Node))
    (reason : Trace.Reason) (tree : Tree Node) : TickOutcome × Output :=
  match prior with
  | none => snapshot config tick now reason tree
  | some prior =>
      match Document.changes prior tree with
      | .error _ => snapshot config tick now .structuralMismatch tree
      | .ok records => increment config tick now records tree

def tick (source : View.Introspector) (root : ViewHandle) (now : Timestamp) (session : Session) :
    TickOutcome × Output × Session :=
  if session.isCapturing then
    let tick := session.ticks + 1
    let settings := session.config.settings
    let begun : Output := { trace := [.tickBegin tick now] }
    let first := Capture.capture settings source session.registry root tick
    if first.registry.exhausted then
      -- Ids of this capture may repeat, so the views are captured again with fresh ones.
      let second := Capture.capture settings source first.registry.reset root tick
      let (outcome, output) :=
        send session.config tick now none .identityExhausted second.tree
      (outcome, begun ++ { trace := first.trace ++ second.trace } ++ output,
        { session with ticks := tick, registry := second.registry, prior := some second.tree })
    else
      let (outcome, output) := send session.config tick now session.prior .noPriorTree first.tree
      (outcome, begun ++ { trace := first.trace } ++ output,
        { session with ticks := tick, registry := first.registry, prior := some first.tree })
  else (.idle, {}, session)

/-- The node that a pointer on a view refers to. -/
def target? (session : Session) (view : ViewHandle) : Option NodeId :=
  if session.isCapturing && session.prior.isSome then session.registry.get? ⟨view, .view⟩ else none

def pointer (kind : Wire.PointerKind) (view : ViewHandle) (place : Point) (now : Timestamp)
    (session : Session) : Bool × Output :=
  match session.target? view with
  | some id =>
      (true,
        { events := [Wire.encodePointer kind id place now]
          trace := [.emission session.ticks now .pointer none] })
  | none => (false, {})

/-- One point of a touch on a view. -/
structure Touch where
  view : ViewHandle
  place : Point
  time : Timestamp

def Touch.sample? (session : Session) (touch : Touch) : Option Wire.TouchSample :=
  (session.target? touch.view).map fun target => ⟨target, touch.place, touch.time⟩

/-- Touches on views that are not known are left out. -/
def touch (touches : List Touch) (now : Timestamp) (session : Session) : Bool × Output :=
  let samples := touches.filterMap (Touch.sample? session)
  if samples.isEmpty then (false, {})
  else
    (true,
      { events := [Wire.encodeTouch samples now]
        trace := [.emission session.ticks now .pointer none] })

end Session

end SessionReplay
