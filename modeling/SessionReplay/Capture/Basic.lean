import SessionReplay.Capture.Survey
import SessionReplay.Identity.Registry

/-!
A capture is a survey whose nodes have been given their ids, in document order. Ids of keys that
were not seen are dropped from the registry.
-/

namespace SessionReplay.Capture

structure Stats where
  nodes : UInt32
  maxDepth : UInt32
  placeholders : UInt32
  truncated : Bool
deriving DecidableEq, Repr

def Tally.stats (tally : Tally) : Stats where
  nodes := Trace.capped tally.nodes
  maxDepth := Trace.capped tally.maxDepth
  placeholders := Trace.capped tally.placeholders
  truncated := tally.truncated

/-- Gives a sighting its id. -/
def number (sighting : Sighting) (registry : Identity.Registry) : Node × Identity.Registry :=
  let (id, registry) := registry.idFor sighting.key
  ({ sighting.face with id }, registry)

def Report.event (tick : UInt64) (view : ViewHandle) : Report → Trace.Event
  | failed stage => .failure tick view stage
  | cut limit depth => .truncation tick view limit (Trace.capped depth)

def Sighting.events (tick : UInt64) (sighting : Sighting) : List Trace.Event :=
  sighting.reports.map (Report.event tick sighting.key.view)

structure Outcome where
  tree : Tree Node
  stats : Stats
  registry : Identity.Registry
  trace : List Trace.Event

/-- What is to be captured, apart from the views. -/
structure Settings where
  rules : Masking.Rules := {}
  limits : Limits := {}
deriving DecidableEq

def capture (settings : Settings) (source : View.Introspector) (registry : Identity.Registry)
    (root : ViewHandle) (tick : UInt64) : Outcome :=
  let surveyor : Surveyor := { source, rules := settings.rules, limits := settings.limits }
  let (sighted, tally) := surveyor.survey root
  let (tree, numbered) := sighted.mapAccum number registry.beginTick
  let (evicted, registry) := numbered.endTick
  let stats := tally.stats
  { tree, stats, registry
    trace := sighted.preorder.flatMap (Sighting.events tick) ++
      [.identity tick (Trace.capped registry.size) (Trace.capped evicted) registry.next,
       .capture tick stats.nodes stats.maxDepth stats.placeholders stats.truncated] }

end SessionReplay.Capture
