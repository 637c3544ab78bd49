import SessionReplay.Identity.Key
import SessionReplay.Time

/-!
Trace events: what a session and its captures report about their own work.
-/

namespace SessionReplay.Trace

/-- The question that a view failed to answer; `unknownKind` stands for a view whose kind means
nothing here. -/
inductive Stage where
  | kind
  | geometry
  | paint
  | content
  | unknownKind
deriving DecidableEq, Inhabited, Repr

inductive Limit where
  | depth
  | nodeBudget
deriving DecidableEq, Inhabited, Repr

inductive EmissionKind where
  | page
  | snapshot
  | incremental
  | unchanged
  | pointer
deriving DecidableEq, Inhabited, Repr

/-- Why a full snapshot was taken. -/
inductive Reason where
  | noPriorTree
  | structuralMismatch
  | mutationOverflow
  | identityExhausted
deriving DecidableEq, Inhabited, Repr

inductive Event where
  | tickBegin (tick : UInt64) (time : Timestamp)
  | failure (tick : UInt64) (view : ViewHandle) (stage : Stage)
  | truncation (tick : UInt64) (view : ViewHandle) (limit : Limit) (depth : UInt32)
  | capture (tick : UInt64) (nodes maxDepth placeholders : UInt32) (truncated : Bool)
  | identity (tick : UInt64) (live evicted : UInt32) (next : NodeId)
  | comparison (tick : UInt64) (removes adds texts attributes : UInt32)
  | emission (tick : UInt64) (time : Timestamp) (kind : EmissionKind) (reason : Option Reason)
deriving DecidableEq, Repr

/-- The tick during which the event happened. -/
def Event.tick : Event → UInt64
  | tickBegin tick .. => tick
  | failure tick .. => tick
  | truncation tick .. => tick
  | capture tick .. => tick
  | identity tick .. => tick
  | comparison tick .. => tick
  | emission tick .. => tick

/-- Counts in trace events stop at the greatest 32 bit number. -/
def capped (count : Nat) : UInt32 := UInt32.ofNat (min count (UInt32.size - 1))

end SessionReplay.Trace
