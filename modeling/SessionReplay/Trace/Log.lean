import SessionReplay.Trace.Event

/-!
Trace events as lines of a log.
-/

namespace SessionReplay.Trace

def Stage.word : Stage → String
  | kind => "kind"
  | geometry => "geometry"
  | paint => "paint"
  | content => "content"
  | unknownKind => "unknown-kind"

def Limit.word : Limit → String
  | depth => "depth"
  | nodeBudget => "node-budget"

def EmissionKind.word : EmissionKind → String
  | page => "meta"
  | snapshot => "full-snapshot"
  | incremental => "incremental"
  | unchanged => "unchanged"
  | pointer => "pointer"

def Reason.word : Reason → String
  | noPriorTree => "no-prior-tree"
  | structuralMismatch => "structural-mismatch"
  | mutationOverflow => "mutation-overflow"
  | identityExhausted => "identity-exhausted"

def field (name : String) (value : Nat) : String := " " ++ name ++ "=" ++ toString value

def Event.line : Event → String
  | tickBegin tick time =>
      "[tick] #" ++ toString tick.toNat ++ " at " ++ toString time.millis.toNat ++ "ms"
  | failure tick view stage =>
      "[failure]" ++ field "tick" tick.toNat ++ " view=" ++ view.label ++ " stage=" ++ stage.word
  | truncation tick view limit depth =>
      "[truncate]" ++ field "tick" tick.toNat ++ " view=" ++ view.label ++ " limit=" ++ limit.word ++
        field "depth" depth.toNat
  | capture tick nodes maxDepth placeholders truncated =>
      "[capture]" ++ field "tick" tick.toNat ++ field "nodes" nodes.toNat ++
        field "depth" maxDepth.toNat ++ field "placeholders" placeholders.toNat ++
        if truncated then " TRUNCATED" else ""
  | identity tick live evicted next =>
      "[identity]" ++ field "tick" tick.toNat ++ field "live" live.toNat ++
        field "evicted" evicted.toNat ++ " next=" ++ next.text
  | comparison tick removes adds texts attributes =>
      "[diff]" ++ field "tick" tick.toNat ++ " -" ++ toString removes.toNat ++
        " +" ++ toString adds.toNat ++ field "text" texts.toNat ++ field "attr" attributes.toNat
  | emission tick time kind reason =>
      "[emit]" ++ field "tick" tick.toNat ++ " " ++ kind.word ++
        (match reason with
          | some reason => " (" ++ reason.word ++ ")"
          | none => "") ++
        " at " ++ toString time.millis.toNat ++ "ms"

/-- Every line ends with a line feed. -/
def log (events : List Event) : String := String.join (events.map fun event => event.line ++ "\n")

end SessionReplay.Trace
