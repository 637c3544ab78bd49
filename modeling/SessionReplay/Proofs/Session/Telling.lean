import Mathlib.Data.List.Induction
import SessionReplay.Proofs.Session.Effect

/-!
What a trace tells of a session. The events that are reported as sent are those that are sent, in
the same order and with the same times. Each tick that captures is reported under a number of its
own, and the numbers go up by one from tick to tick.
-/

namespace SessionReplay

namespace Trace

/-- What a report of this kind says has been sent. Type 4 is a page, type 2 a document, and type 3
an increment: changes, a pointer or a touch. -/
def EmissionKind.Announces (kind : EmissionKind) (payload : Wire.Payload) : Prop :=
  match kind with
  | .page => payload.typeCode = 4
  | .snapshot => payload.typeCode = 2
  | .incremental => ∃ step, payload = .increment step ∧ step.sourceCode = 0
  | .pointer => ∃ step, payload = .increment step ∧ (step.sourceCode = 2 ∨ step.sourceCode = 6)
  | .unchanged => False

namespace Event

/-- A report of an event that was sent. -/
def isSending : Event → Bool
  | emission _ _ kind _ => kind ≠ .unchanged
  | _ => false

def Announces : Event → Wire.Event → Prop
  | emission _ time kind _, event => time = event.time ∧ kind.Announces event.payload
  | _, _ => False

/-- The number that a tick begins with. -/
def begun? : Event → Option UInt64
  | tickBegin tick _ => some tick
  | _ => none

theorem Amid.silent {tick : UInt64} {event : Event} (amid : event.Amid tick) :
    event.isSending = false := by
  cases event with
  | emission => exact absurd amid.quiet nofun
  | _ => rfl

theorem begun?_eq_none {event : Event} (later : event.isBegin = false) : event.begun? = none := by
  cases event with
  | tickBegin => contradiction
  | _ => rfl

end Event

end Trace

namespace Session

/-- All events that a run sends. -/
def handed (steps : List Step) : List Wire.Event := steps.flatMap fun step => step.output.events

/-- All that a run reports. -/
def traced (steps : List Step) : List Trace.Event := steps.flatMap fun step => step.output.trace

/-- How many ticks of a run capture. -/
def captures (session : Session) : List Operation → Nat
  | [] => 0
  | operation :: operations =>
      (operation.isTick && session.isCapturing).toNat +
        captures (session.step operation).after operations

/-- How a tick reports what it came to. -/
def told (tick : UInt64) (now : Timestamp) : TickOutcome → List Trace.Event
  | .idle => []
  | .unchanged => [.emission tick now .unchanged none]
  | .incremental _ => [.emission tick now .incremental none]
  | .snapshot reason =>
      [.emission tick now .page none, .emission tick now .snapshot (some reason)]

/-- The report of a tick that captures, as `tick` and at the time `now`. -/
structure Reported (tick : UInt64) (now : Timestamp) (outcome : TickOutcome)
    (trace : List Trace.Event) : Prop where
  /-- It begins the tick, and does so only once. -/
  begins : ∃ rest, trace = .tickBegin tick now :: rest ∧ ∀ report ∈ rest, report.isBegin = false
  numbered : ∀ report ∈ trace, report.tick = tick
  told : trace.filter Trace.Event.isEmission = told tick now outcome

/-- How a trace tells of the runs from this session. -/
structure Telling (session : Session) : Prop where
  /-- What is reported as sent are the events that are sent, one by one. -/
  sendings : ∀ operations, List.Forall₂ Trace.Event.Announces
    ((traced (session.run operations)).filter Trace.Event.isSending)
    (handed (session.run operations))
  /-- The ticks that capture are counted from 1 on, in 64 bits. -/
  numbers : ∀ operations, (traced (session.run operations)).filterMap Trace.Event.begun? =
    (List.range (captures session operations)).map fun former => UInt64.ofNat (former + 1)
  ticks : ∀ operations source root now, (session.after operations).isCapturing = true →
    let step := (session.after operations).step (.tick source root now)
    ∃ outcome, step.reply = .ticked outcome ∧ outcome ≠ .idle ∧
      Reported (UInt64.ofNat (captures session operations + 1)) now outcome step.output.trace

section Reports

variable {config : Config} {tick : UInt64} {now : Timestamp} {prior : Option (Tree Node)}
  {tree : Tree Node} {outcome : TickOutcome} {events : List Wire.Event}
  {emissions : List Trace.Event}

theorem announces_sends
    (sends : Sends config tick now prior tree outcome events emissions) :
    List.Forall₂ Trace.Event.Announces (emissions.filter Trace.Event.isSending) events := by
  cases sends with
  | snapshot reason => exact .cons ⟨rfl, rfl⟩ (.cons ⟨rfl, rfl⟩ .nil)
  | incremental known some few full => exact .cons ⟨rfl, _, rfl, rfl⟩ .nil
  | unchanged known => exact .nil

theorem told_sends
    (sends : Sends config tick now prior tree outcome events emissions) :
    emissions = told tick now outcome ∧ outcome ≠ .idle := by
  cases sends with
  | snapshot reason => exact ⟨rfl, nofun⟩
  | incremental known some few full => exact ⟨rfl, nofun⟩
  | unchanged known => exact ⟨rfl, nofun⟩

theorem mem_told {report : Trace.Event} (member : report ∈ told tick now outcome) :
    ∃ kind reason, report = .emission tick now kind reason := by
  cases outcome with
  | idle => contradiction
  | unchanged => exact ⟨_, _, List.mem_singleton.mp member⟩
  | incremental records => exact ⟨_, _, List.mem_singleton.mp member⟩
  | snapshot reason => rcases List.mem_pair.mp member with rfl | rfl <;> exact ⟨_, _, rfl⟩

theorem begun_reported {trace : List Trace.Event} (reported : Reported tick now outcome trace) :
    trace.filterMap Trace.Event.begun? = [tick] := by
  obtain ⟨rest, rfl, later⟩ := reported.begins
  have none : rest.filterMap Trace.Event.begun? = [] :=
    List.filterMap_eq_nil_iff.mpr fun report member =>
      Trace.Event.begun?_eq_none (later report member)
  exact congrArg (tick :: ·) none

end Reports

section Steps

variable {session : Session}

theorem announces_step (session : Session) (operation : Operation) :
    List.Forall₂ Trace.Event.Announces
      ((session.step operation).output.trace.filter Trace.Event.isSending)
      (session.step operation).output.events := by
  have effect := effect_step session operation
  generalize session.step operation = step at effect ⊢
  cases effect with
  | @captured source root now registry captured outcome events reports emissions active supply
      capture amid sends =>
      have silent : reports.filter Trace.Event.isSending = [] :=
        List.filter_eq_nil_iff.mpr fun report member =>
          Bool.eq_false_iff.mp (amid report member).silent
      have own := announces_sends sends
      rw [List.filter_cons_of_neg Bool.false_ne_true, List.filter_append, silent, List.nil_append]
      exact own
  | pointed kind place now known => exact .cons ⟨rfl, _, rfl, .inl rfl⟩ .nil
  | touched now some => exact .cons ⟨rfl, _, rfl, .inr rfl⟩ .nil
  | _ => exact .nil

theorem ticks_step (session : Session) (operation : Operation) :
    (session.step operation).after.ticks =
      session.ticks + UInt64.ofNat (operation.isTick && session.isCapturing).toNat := by
  have effect := effect_step session operation
  generalize session.step operation = step at effect ⊢
  cases effect with
  | captured source root now active supply capture amid sends =>
      rw [active]
      rfl
  | ignored source root now idle =>
      rw [idle, Bool.and_false]
      exact (UInt64.add_zero _).symm
  | _ => exact (UInt64.add_zero _).symm

theorem reported_step (source : View.Introspector) (root : ViewHandle) (now : Timestamp)
    (active : session.isCapturing = true) :
    ∃ outcome, (session.step (.tick source root now)).reply = .ticked outcome ∧
      outcome ≠ .idle ∧
      Reported (session.ticks + 1) now outcome
        (session.step (.tick source root now)).output.trace := by
  have effect := effect_step session (.tick source root now)
  generalize session.step (.tick source root now) = step at effect ⊢
  cases effect with
  | ignored source root now idle => rw [active] at idle; contradiction
  | @captured source root now registry captured outcome events reports emissions active supply
      capture amid sends =>
      obtain ⟨rfl, some⟩ := told_sends sends
      have numbered : ∀ report ∈ reports ++ told (session.ticks + 1) now outcome,
          report.isBegin = false ∧ report.tick = session.ticks + 1 := by
        intro report member
        rcases List.mem_append.mp member with before | last
        · exact ⟨(amid report before).later, (amid report before).tick⟩
        · obtain ⟨kind, reason, rfl⟩ := mem_told last
          exact ⟨rfl, rfl⟩
      refine ⟨outcome, rfl, some, ?_⟩
      constructor
      case begins => exact ⟨_, rfl, fun report member => (numbered report member).1⟩
      case numbered =>
        exact List.forall_mem_cons.mpr ⟨rfl, fun report member => (numbered report member).2⟩
      case told =>
        have quiet : reports.filter Trace.Event.isEmission = [] :=
          List.filter_eq_nil_iff.mpr fun report member =>
            Bool.eq_false_iff.mp (amid report member).quiet
        rw [List.filter_cons_of_neg Bool.false_ne_true, List.filter_append, quiet,
          List.nil_append, List.filter_eq_self]
        intro report last
        obtain ⟨kind, reason, rfl⟩ := mem_told last
        rfl

theorem begun_step (session : Session) (operation : Operation) :
    (session.step operation).output.trace.filterMap Trace.Event.begun? =
      if operation.isTick && session.isCapturing then [session.ticks + 1] else [] := by
  split
  case isTrue both =>
    obtain ⟨tick, active⟩ := Bool.and_eq_true_iff.mp both
    cases operation with
    | tick source root now =>
        obtain ⟨outcome, -, -, reported⟩ := reported_step source root now active
        exact begun_reported reported
    | _ => contradiction
  case isFalse other =>
    have effect := effect_step session operation
    generalize session.step operation = step at effect ⊢
    cases effect with
    | captured source root now active supply capture amid sends => exact absurd active other
    | _ => rfl

end Steps

section Runs

theorem captures_concat (session : Session) (operations : List Operation) (operation : Operation) :
    captures session (operations ++ [operation]) = captures session operations +
      (operation.isTick && (session.after operations).isCapturing).toNat := by
  induction operations generalizing session with
  | nil => simp [captures, after]
  | cons first operations induction =>
      rw [List.cons_append, captures, induction, captures, Nat.add_assoc]
      rfl

theorem ticks_after (session : Session) (operations : List Operation) :
    (session.after operations).ticks =
      session.ticks + UInt64.ofNat (captures session operations) := by
  induction operations using List.reverseRecOn with
  | nil => exact (UInt64.add_zero _).symm
  | append_singleton operations operation induction =>
      rw [after_concat, ticks_step, induction, captures_concat, UInt64.ofNat_add, UInt64.add_assoc]

theorem flatMap_run_concat {Item : Type} (part : Step → List Item) (session : Session)
    (operations : List Operation) (operation : Operation) :
    (session.run (operations ++ [operation])).flatMap part =
      (session.run operations).flatMap part ++
        part ((session.after operations).step operation) := by
  rw [run_concat, List.flatMap_append, List.flatMap_singleton]

theorem announces_run (session : Session) (operations : List Operation) :
    List.Forall₂ Trace.Event.Announces
      ((traced (session.run operations)).filter Trace.Event.isSending)
      (handed (session.run operations)) := by
  induction operations using List.reverseRecOn with
  | nil => exact .nil
  | append_singleton operations operation induction =>
      rw [traced, handed, flatMap_run_concat, flatMap_run_concat, List.filter_append]
      exact List.rel_append induction (announces_step _ operation)

theorem begun_run (session : Session) (operations : List Operation) :
    (traced (session.run operations)).filterMap Trace.Event.begun? =
      (List.range (captures session operations)).map fun former =>
        session.ticks + UInt64.ofNat (former + 1) := by
  induction operations using List.reverseRecOn with
  | nil => rfl
  | append_singleton operations operation induction =>
      rw [traced, flatMap_run_concat, List.filterMap_append, ← traced, induction, begun_step,
        captures_concat]
      cases operation.isTick && (session.after operations).isCapturing with
      | false => simp
      | true =>
          -- The new tick has the number after those that were counted before it.
          rw [Bool.toNat_true, List.range_succ, List.map_append, ticks_after, UInt64.add_assoc]
          simp [UInt64.ofNat_add]

end Runs

/-- The trace of a session tells what is sent, however the session is used. -/
theorem telling_new (config : Config) : Telling { config } := by
  constructor
  case sendings => exact announces_run { config }
  case numbers =>
    intro operations
    rw [begun_run]
    simp only [UInt64.zero_add]
  case ticks =>
    intro operations source root now active
    have reported := reported_step source root now active
    rw [ticks_after, UInt64.zero_add] at reported
    rw [UInt64.ofNat_add]
    exact reported

end Session

end SessionReplay
