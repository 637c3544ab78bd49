import SessionReplay.Proofs.Session.Run

/-!
What an operation of a session can do, all of it in one place. Statements about runs go through the
cases that are told apart here, and not through the operations themselves.
-/

namespace SessionReplay

namespace Trace.Event

/-- A report of something that was sent, or that there was nothing to send. -/
def isEmission : Event → Bool
  | emission .. => true
  | _ => false

def isBegin : Event → Bool
  | tickBegin .. => true
  | _ => false

/-- A report of what a tick does between its beginning and what it sends. -/
structure Amid (tick : UInt64) (event : Event) : Prop where
  tick : event.tick = tick
  quiet : event.isEmission = false
  later : event.isBegin = false

end Trace.Event

theorem Capture.trace_capture (settings : Settings) (source : View.Introspector)
    (registry : Identity.Registry) (root : ViewHandle) (tick : UInt64) :
    ∀ event ∈ (capture settings source registry root tick).trace, event.Amid tick := by
  intro event member
  rcases List.mem_append.mp member with seen | last
  · obtain ⟨sighting, -, reported⟩ := List.mem_flatMap.mp seen
    obtain ⟨report, -, rfl⟩ := List.mem_map.mp reported
    cases report <;> exact ⟨rfl, rfl, rfl⟩
  · rcases List.mem_pair.mp last with rfl | rfl <;> exact ⟨rfl, rfl, rfl⟩

namespace Session

open SessionReplay.Identity (Registry)

/-- The page, and then the whole document. -/
def presentation (config : Config) (now : Timestamp) (tree : Tree Node) : List Wire.Event :=
  [Wire.encodePage config.href (pixels tree.data.frame.width) (pixels tree.data.frame.height) now,
   config.encoder.encodeSnapshot tree now]

/-- What a tick can come to with a new document: its outcome, what it sends, and how that is
reported. Changes are sent only where there is a document that they lead on from. -/
inductive Sends (config : Config) (tick : UInt64) (now : Timestamp) (prior : Option (Tree Node))
    (tree : Tree Node) : TickOutcome → List Wire.Event → List Trace.Event → Prop
  | snapshot (reason : Trace.Reason) :
      Sends config tick now prior tree (.snapshot reason) (presentation config now tree)
        [.emission tick now .page none, .emission tick now .snapshot (some reason)]
  | incremental {records : List Record} (known : prior.isSome = true) (some : 1 ≤ records.length)
      (few : records.length ≤ config.maxMutations)
      (full : (config.encoder.mutationOf records).isEmpty = false) :
      Sends config tick now prior tree (.incremental records.length)
        [config.encoder.encodeRecords records now] [.emission tick now .incremental none]
  | unchanged (known : prior.isSome = true) :
      Sends config tick now prior tree .unchanged [] [.emission tick now .unchanged none]

section Sending

variable {config : Config} {tick : UInt64} {now : Timestamp} {tree : Tree Node}

theorem sends_increment {prior : Option (Tree Node)} (known : prior.isSome = true)
    (records : List Record) :
    ∃ emissions,
      (increment config tick now records tree).2.trace =
        comparisonEvent tick (Record.count records) :: emissions ∧
      Sends config tick now prior tree (increment config tick now records tree).1
        (increment config tick now records tree).2.events emissions := by
  unfold increment
  dsimp only
  split
  case isTrue => exact ⟨_, rfl, .unchanged known⟩
  case isFalse present =>
    have some : 1 ≤ records.length := by
      rw [List.isEmpty_iff] at present
      exact List.length_pos_iff.mpr present
    split
    case isTrue => exact ⟨_, rfl, .snapshot .mutationOverflow⟩
    case isFalse few =>
      split
      case isTrue => exact ⟨_, rfl, .unchanged known⟩
      case isFalse full =>
        exact ⟨_, rfl, .incremental known some (Nat.not_lt.mp few) (Bool.eq_false_iff.mpr full)⟩

theorem sends_send (config : Config) (tick : UInt64) (now : Timestamp) (prior : Option (Tree Node))
    (reason : Trace.Reason) (tree : Tree Node) :
    ∃ reports emissions,
      (send config tick now prior reason tree).2.trace = reports ++ emissions ∧
      (∀ report ∈ reports, report.Amid tick) ∧
      Sends config tick now prior tree (send config tick now prior reason tree).1
        (send config tick now prior reason tree).2.events emissions := by
  unfold send
  split
  case h_1 => exact ⟨[], _, rfl, List.forall_mem_nil _, .snapshot reason⟩
  case h_2 previous =>
    split
    case h_1 => exact ⟨[], _, rfl, List.forall_mem_nil _, .snapshot .structuralMismatch⟩
    case h_2 records compared =>
      have known : (some previous).isSome = true := rfl
      obtain ⟨emissions, trace, sends⟩ := sends_increment known records
      exact ⟨[_], emissions, trace, List.forall_mem_singleton.mpr ⟨rfl, rfl, rfl⟩, sends⟩

end Sending

/-- All that an operation can come to. A tick that captures does so with the registry of the
session or, when that one runs out, with a new one. -/
inductive Effect (session : Session) : Operation → Step → Prop
  | resumed (now : Timestamp) (active : session.isCapturing = true) :
      Effect session (.start now) ⟨.none, {}, session⟩
  | started (now : Timestamp) (idle : session.isCapturing = false) :
      Effect session (.start now)
        ⟨.none, {},
          { session with state := .capturing, startedAt := some now, prior := none }⟩
  | stopped :
      Effect session .stop
        ⟨.none, {}, { session with state := .idle, startedAt := none, prior := none }⟩
  | reset :
      Effect session .reset ⟨.none, {}, { session with registry := .new, prior := none }⟩
  | ignored (source : View.Introspector) (root : ViewHandle) (now : Timestamp)
      (idle : session.isCapturing = false) :
      Effect session (.tick source root now) ⟨.ticked .idle, {}, session⟩
  | captured (source : View.Introspector) (root : ViewHandle) (now : Timestamp)
      {registry : Registry} {captured : Capture.Outcome} {outcome : TickOutcome}
      {events : List Wire.Event} {reports emissions : List Trace.Event}
      (active : session.isCapturing = true)
      (supply : registry = session.registry ∨ registry = .new)
      (capture : captured = Capture.capture session.config.settings source registry root
        (session.ticks + 1))
      (amid : ∀ report ∈ reports, report.Amid (session.ticks + 1))
      (sends : Sends session.config (session.ticks + 1) now session.prior captured.tree outcome
        events emissions) :
      Effect session (.tick source root now)
        ⟨.ticked outcome,
          ⟨events, .tickBegin (session.ticks + 1) now :: (reports ++ emissions)⟩,
          { session with
            ticks := session.ticks + 1
            registry := captured.registry
            prior := some captured.tree }⟩
  | pointed (kind : Wire.PointerKind) {view : ViewHandle} (place : Point) (now : Timestamp)
      {target : NodeId} (known : session.target? view = some target) :
      Effect session (.pointer kind view place now)
        ⟨.recorded true,
          ⟨[Wire.encodePointer kind target place now],
            [.emission session.ticks now .pointer none]⟩, session⟩
  | missed (kind : Wire.PointerKind) {view : ViewHandle} (place : Point) (now : Timestamp)
      (unknown : session.target? view = none) :
      Effect session (.pointer kind view place now) ⟨.recorded false, {}, session⟩
  | touched {touches : List Touch} (now : Timestamp)
      (some : touches.filterMap (Touch.sample? session) ≠ []) :
      Effect session (.touch touches now)
        ⟨.recorded true,
          ⟨[Wire.encodeTouch (touches.filterMap (Touch.sample? session)) now],
            [.emission session.ticks now .pointer none]⟩, session⟩
  | untouched {touches : List Touch} (now : Timestamp)
      (none : touches.filterMap (Touch.sample? session) = []) :
      Effect session (.touch touches now) ⟨.recorded false, {}, session⟩

variable {session : Session}

theorem effect_capturing (source : View.Introspector) (root : ViewHandle) (now : Timestamp)
    (active : session.isCapturing = true) :
    Effect session (.tick source root now) (session.step (.tick source root now)) := by
  have seen := fun registry =>
    Capture.trace_capture session.config.settings source registry root (session.ticks + 1)
  change Effect session _ ⟨.ticked (session.tick source root now).1,
    (session.tick source root now).2.1, (session.tick source root now).2.2⟩
  unfold tick
  rw [if_pos active]
  dsimp only
  split
  case isTrue =>
    have amid := List.forall_mem_append.mpr ⟨seen session.registry, seen .new⟩
    exact .captured source root now active (.inr rfl) rfl amid (.snapshot .identityExhausted)
  case isFalse =>
    obtain ⟨reports, emissions, trace, amid, sends⟩ := sends_send session.config
      (session.ticks + 1) now session.prior .noPriorTree
      (Capture.capture session.config.settings source session.registry root
        (session.ticks + 1)).tree
    have all := List.forall_mem_append.mpr ⟨seen session.registry, amid⟩
    have effect := Effect.captured source root now active (.inl rfl) rfl all sends
    rw [List.append_assoc, ← trace] at effect
    exact effect

theorem effect_step (session : Session) (operation : Operation) :
    Effect session operation (session.step operation) := by
  cases operation with
  | start now =>
      change Effect session (.start now) ⟨.none, {}, session.start now⟩
      unfold start
      split
      case isTrue active => exact .resumed now active
      case isFalse idle => exact .started now (Bool.eq_false_iff.mpr idle)
  | stop => exact .stopped
  | reset => exact .reset
  | tick source root now =>
      by_cases active : session.isCapturing = true
      · exact effect_capturing source root now active
      · have ignored : session.tick source root now = (.idle, {}, session) := if_neg active
        change Effect session _ ⟨.ticked (session.tick source root now).1,
          (session.tick source root now).2.1, (session.tick source root now).2.2⟩
        rw [ignored]
        exact .ignored source root now (Bool.eq_false_iff.mpr active)
  | pointer kind view place now =>
      change Effect session _ ⟨.recorded (session.pointer kind view place now).1,
        (session.pointer kind view place now).2, session⟩
      unfold pointer
      split
      case h_1 target known => exact .pointed kind place now known
      case h_2 unknown => exact .missed kind place now unknown
  | touch touches now =>
      change Effect session _ ⟨.recorded (session.touch touches now).1,
        (session.touch touches now).2, session⟩
      unfold touch
      dsimp only
      split
      case isTrue none => exact .untouched now (List.isEmpty_iff.mp none)
      case isFalse some => exact .touched now fun none => some (List.isEmpty_iff.mpr none)

end Session

end SessionReplay
