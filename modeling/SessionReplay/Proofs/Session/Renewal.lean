import SessionReplay.Proofs.Session.Run

/-!
Resets. A session that was reset goes on as a new one would: it still knows how many ticks it has
made and when it was started, but neither is heard from the outside.
-/

namespace SessionReplay.Session

/-- The sessions differ at most in how many ticks they have made and in when they were started. -/
structure Alike (first second : Session) : Prop where
  config : first.config = second.config
  registry : first.registry = second.registry
  state : first.state = second.state
  prior : first.prior = second.prior

/-- What is heard of a run: what each operation returns, and the events that it sends. -/
def heard (steps : List Step) : List (Reply × List Wire.Event) :=
  steps.map fun step => (step.reply, step.output.events)

/-- A new session that has been brought to this state. -/
def renewed (config : Config) (now : Timestamp) : State → Session
  | .idle => { config }
  | .capturing => start now { config }

/-- The steps are heard alike, and leave sessions that are alike. -/
structure Echoes (first second : Step) : Prop where
  reply : first.reply = second.reply
  events : first.output.events = second.output.events
  after : Alike first.after second.after

section Ticks

variable (config : Config) (tick other : UInt64) (now : Timestamp) (tree : Tree Node)

theorem increment_other (records : List Record) :
    (increment config tick now records tree).1 = (increment config other now records tree).1 ∧
      (increment config tick now records tree).2.events =
        (increment config other now records tree).2.events := by
  unfold increment
  dsimp only
  split
  case isTrue => exact ⟨rfl, rfl⟩
  case isFalse =>
    split
    case isTrue => exact ⟨rfl, rfl⟩
    case isFalse => split <;> exact ⟨rfl, rfl⟩

/-- The number of a tick is not sent. -/
theorem send_other (prior : Option (Tree Node)) (reason : Trace.Reason) :
    (send config tick now prior reason tree).1 = (send config other now prior reason tree).1 ∧
      (send config tick now prior reason tree).2.events =
        (send config other now prior reason tree).2.events := by
  unfold send
  split
  case h_1 => exact ⟨rfl, rfl⟩
  case h_2 previous =>
    split
    case h_1 => exact ⟨rfl, rfl⟩
    case h_2 records _ => exact increment_other config tick other now tree records

end Ticks

section Steps

variable {first second : Session}

theorem alike_capturing (alike : Alike first second) : first.isCapturing = second.isCapturing := by
  unfold isCapturing
  rw [alike.state]

theorem alike_target (alike : Alike first second) : first.target? = second.target? := by
  unfold target?
  rw [alike_capturing alike, alike.prior, alike.registry]

theorem alike_sample (alike : Alike first second) :
    Touch.sample? first = Touch.sample? second := by
  unfold Touch.sample?
  rw [alike_target alike]

theorem echoes_tick (alike : Alike first second) (source : View.Introspector) (root : ViewHandle)
    (now : Timestamp) :
    Echoes (first.step (.tick source root now)) (second.step (.tick source root now)) := by
  change Echoes
    ⟨.ticked (first.tick source root now).1, (first.tick source root now).2.1,
      (first.tick source root now).2.2⟩
    ⟨.ticked (second.tick source root now).1, (second.tick source root now).2.1,
      (second.tick source root now).2.2⟩
  unfold tick
  rw [← alike_capturing alike, ← alike.config, ← alike.registry, ← alike.prior]
  split
  case isFalse => exact ⟨rfl, rfl, alike⟩
  case isTrue =>
    have sends := send_other first.config (first.ticks + 1) (second.ticks + 1) now
    dsimp only
    by_cases out : (Capture.capture first.config.settings source first.registry root
        (first.ticks + 1)).registry.exhausted = true
    · have same : (Capture.capture first.config.settings source first.registry root
          (second.ticks + 1)).registry.exhausted = true := out
      rw [if_pos out, if_pos same]
      obtain ⟨outcome, events⟩ := sends (Capture.capture first.config.settings source .new root
          (first.ticks + 1)).tree none .identityExhausted
      exact ⟨congrArg Reply.ticked outcome, events, rfl, rfl, alike.state, rfl⟩
    · have same : ¬(Capture.capture first.config.settings source first.registry root
          (second.ticks + 1)).registry.exhausted = true := out
      rw [if_neg out, if_neg same]
      obtain ⟨outcome, events⟩ := sends (Capture.capture first.config.settings source
          first.registry root (first.ticks + 1)).tree first.prior .noPriorTree
      exact ⟨congrArg Reply.ticked outcome, events, rfl, rfl, alike.state, rfl⟩

theorem echoes_step (alike : Alike first second) (operation : Operation) :
    Echoes (first.step operation) (second.step operation) := by
  cases operation with
  | start now =>
      refine ⟨rfl, rfl, ?_⟩
      change Alike (first.start now) (second.start now)
      unfold start
      rw [alike_capturing alike]
      split
      case isTrue => exact alike
      case isFalse => exact ⟨alike.config, alike.registry, rfl, rfl⟩
  | stop => exact ⟨rfl, rfl, alike.config, alike.registry, rfl, rfl⟩
  | reset => exact ⟨rfl, rfl, alike.config, rfl, alike.state, rfl⟩
  | tick source root now => exact echoes_tick alike source root now
  | pointer kind view place now =>
      change Echoes ⟨.recorded (first.pointer kind view place now).1,
          (first.pointer kind view place now).2, first⟩
        ⟨.recorded (second.pointer kind view place now).1,
          (second.pointer kind view place now).2, second⟩
      unfold pointer
      rw [alike_target alike]
      split
      case h_1 target _ => exact ⟨rfl, rfl, alike⟩
      case h_2 => exact ⟨rfl, rfl, alike⟩
  | touch touches now =>
      change Echoes ⟨.recorded (first.touch touches now).1, (first.touch touches now).2, first⟩
        ⟨.recorded (second.touch touches now).1, (second.touch touches now).2, second⟩
      unfold touch
      rw [alike_sample alike]
      dsimp only
      split
      case isTrue => exact ⟨rfl, rfl, alike⟩
      case isFalse => exact ⟨rfl, rfl, alike⟩

theorem heard_alike (alike : Alike first second) (operations : List Operation) :
    heard (first.run operations) = heard (second.run operations) := by
  induction operations generalizing first second with
  | nil => rfl
  | cons operation operations induction =>
      have echoes := echoes_step alike operation
      have later := induction echoes.after
      unfold heard at later ⊢
      rw [run, run, List.map_cons, List.map_cons, later, echoes.reply, echoes.events]

end Steps

theorem alike_renewed (session : Session) (now : Timestamp) :
    Alike session.reset (renewed session.config now session.state) := by
  cases state : session.state with
  | idle => exact ⟨rfl, rfl, state, rfl⟩
  | capturing => exact ⟨rfl, rfl, state, rfl⟩

/-- After a reset nothing is heard of what has gone before. -/
theorem heard_run_reset (config : Config) (former later : List Operation) (now : Timestamp) :
    heard ((after { config } former).reset.run later) =
      heard ((renewed config now (after { config } former).state).run later) := by
  have alike := alike_renewed (after { config } former) now
  rw [config_after] at alike
  exact heard_alike alike later

end SessionReplay.Session
