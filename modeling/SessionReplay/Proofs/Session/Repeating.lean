import SessionReplay.Proofs.Capture.Settling
import SessionReplay.Proofs.Document.Sameness
import SessionReplay.Proofs.Session.Run

/-!
Ticks at which nothing has changed. A tick that looks at the same views as the tick before has
nothing to send, and leaves the document and the registry as they are.
-/

namespace SessionReplay.Session

open SessionReplay.Identity (Counted Registry)

/-- The ids of a session's registry are in order until they run out. -/
def Orderly (session : Session) : Prop :=
  session.registry.exhausted = false → Counted session.registry

theorem orderly_reset (registry : Registry) :
    registry.reset.exhausted = false → Counted registry.reset :=
  fun _ => Registry.counted_startingAt _

variable {session : Session} {source : View.Introspector} {root : ViewHandle}

/-- After a tick a session has what was captured with its registry, or with a new one if that one
ran out. -/
theorem tick_captures (orderly : Orderly session) (capturing : session.isCapturing = true)
    (now : Timestamp) :
    ∃ registry : Registry, (registry.exhausted = false → Counted registry) ∧
      let captured := Capture.capture session.config.settings source registry root
        (session.ticks + 1)
      (session.tick source root now).2.2 =
        { session with
          ticks := session.ticks + 1
          registry := captured.registry
          prior := some captured.tree } := by
  unfold tick
  rw [if_pos capturing]
  dsimp only
  split
  case isTrue => exact ⟨_, orderly_reset _, rfl⟩
  case isFalse => exact ⟨session.registry, orderly, rfl⟩

theorem orderly_step (orderly : Orderly session) (operation : Operation) :
    Orderly (session.step operation).after := by
  cases operation with
  | start now =>
      change Orderly (session.start now)
      unfold start
      split
      case isTrue => exact orderly
      case isFalse => exact orderly
  | stop => exact orderly
  | reset => exact orderly_reset session.registry
  | pointer kind view place now => exact orderly
  | touch touches now => exact orderly
  | tick source root now =>
      change Orderly (session.tick source root now).2.2
      by_cases capturing : session.isCapturing = true
      · obtain ⟨registry, counted, after⟩ := tick_captures orderly capturing now
        rw [after]
        intro left
        have remaining : (Capture.capture session.config.settings source registry root
            (session.ticks + 1)).registry.exhausted = false := left
        exact Capture.counted_capture counted remaining
      · unfold tick
        rw [if_neg capturing]
        exact orderly

theorem orderly_run (operations : List Operation) (orderly : Orderly session) :
    ∀ step ∈ session.run operations, Orderly step.after := by
  induction operations generalizing session with
  | nil => exact List.forall_mem_nil _
  | cons operation operations induction =>
      have stepped := orderly_step orderly operation
      exact List.forall_mem_cons.mpr ⟨stepped, induction stepped⟩

/-- A document that is the same as the last one is not sent. -/
theorem send_same {tree : Tree Node} (apart : Document.Apart tree) (config : Config)
    (tick : UInt64) (now : Timestamp) (reason : Trace.Reason) :
    (send config tick now (some tree) reason tree).1 = .unchanged ∧
      (send config tick now (some tree) reason tree).2.events = [] := by
  have same : send config tick now (some tree) reason tree = increment config tick now [] tree := by
    simp only [send, Document.changes_self apart]
  rw [same]
  exact ⟨rfl, rfl⟩

/-- A tick that captures what the session has already. -/
theorem tick_settled {tree : Tree Node} (apart : Document.Apart tree)
    (capturing : session.isCapturing = true) (prior : session.prior = some tree)
    (left : session.registry.exhausted = false)
    (same : (Capture.capture session.config.settings source session.registry root
      (session.ticks + 1)).tree = tree)
    (still : (Capture.capture session.config.settings source session.registry root
      (session.ticks + 1)).registry = session.registry) (now : Timestamp) :
    (session.tick source root now).1 = .unchanged ∧
      (session.tick source root now).2.1.events = [] ∧
      (session.tick source root now).2.2 = { session with ticks := session.ticks + 1 } := by
  obtain ⟨outcome, events⟩ := send_same apart session.config (session.ticks + 1) now .noPriorTree
  unfold tick
  rw [if_pos capturing]
  dsimp only
  rw [still, left, if_neg Bool.false_ne_true, same, prior]
  refine ⟨outcome, events, ?_⟩
  rw [← prior]

/-- A second tick on the same views has nothing to send, and leaves all but the count of ticks as
the first one left it. -/
theorem tick_again_unchanged (config : Config) {operations : List Operation} {step : Step}
    (member : step ∈ Session.run { config } operations)
    (capturing : step.after.isCapturing = true) (source : View.Introspector) (root : ViewHandle)
    (apart : ∀ view, (source.children view).Nodup) (now later : Timestamp)
    (left : (step.after.tick source root now).2.2.registry.exhausted = false) :
    let first := (step.after.tick source root now).2.2
    let again := first.tick source root later
    again.1 = .unchanged ∧ again.2.1.events = [] ∧
      again.2.2 = { first with ticks := first.ticks + 1 } ∧
      ∃ tree, first.prior = some tree := by
  have orderly : Orderly step.after :=
    orderly_run operations (fun _ => Registry.counted_startingAt _) step member
  obtain ⟨registry, counted, after⟩ := tick_captures orderly capturing now
  dsimp only at after ⊢
  generalize (step.after.tick source root now).2.2 = first at after left ⊢
  have config : first.config = step.after.config := by rw [after]
  have still : first.isCapturing = true := by
    rw [after]
    exact capturing
  have prior := congrArg Session.prior after
  have held := congrArg Session.registry after
  dsimp only at prior held
  rw [← config] at prior held
  have count : (Capture.capture first.config.settings source registry root
      (step.after.ticks + 1)).registry.exhausted = false := by rw [← held, left]
  have tree := Capture.tree_again counted count (first.ticks + 1)
  have kept := Capture.registry_again counted count (first.ticks + 1)
  rw [← held] at tree kept
  obtain ⟨outcome, events, last⟩ := tick_settled (Capture.apart_capture counted apart count) still
    prior left tree kept later
  exact ⟨outcome, events, last, _, prior⟩

theorem gallery_apart (view : ViewHandle) : (Capture.gallery.children view).Nodup := by
  simp only [Capture.gallery]
  split
  · decide
  · exact List.nodup_nil

/-- A session that has just been started. -/
def justStarted : Session := Session.start ⟨0⟩ { config := {} }

/-- The gallery is looked at twice after the start of a session. -/
theorem tick_again_unchanged_gallery :
    let first := (justStarted.tick Capture.gallery ⟨1⟩ ⟨1⟩).2.2
    first.registry.exhausted = false ∧ (first.tick Capture.gallery ⟨1⟩ ⟨2⟩).1 = .unchanged ∧
      (first.tick Capture.gallery ⟨1⟩ ⟨2⟩).2.1.events = [] := by
  have left : (justStarted.tick Capture.gallery ⟨1⟩ ⟨1⟩).2.2.registry.exhausted = false := by
    decide +kernel
  have started : Step.mk .none {} justStarted ∈ Session.run { config := {} } [.start ⟨0⟩] :=
    List.mem_cons_self
  obtain ⟨outcome, events, -⟩ :=
    tick_again_unchanged {} started rfl Capture.gallery ⟨1⟩ gallery_apart ⟨1⟩ ⟨2⟩ left
  exact ⟨left, outcome, events⟩

end SessionReplay.Session
