import SessionReplay.Proofs.Capture.Reach
import SessionReplay.Session.Basic

/-!
Runs of a session: the operations on it in any order, with what each returns and sends. Every tick
may look at another host and at another root.
-/

namespace SessionReplay.Session

inductive Operation where
  | start (now : Timestamp)
  | stop
  | reset
  | tick (source : View.Introspector) (root : ViewHandle) (now : Timestamp)
  | pointer (kind : Wire.PointerKind) (view : ViewHandle) (place : Point) (now : Timestamp)
  | touch (touches : List Touch) (now : Timestamp)

/-- Whatever a tick looks at, it reaches no view twice. -/
def Operation.ReachesOnce : Operation → Prop
  | tick source root _ => source.ReachesOnce root
  | _ => True

def Operation.isTick : Operation → Bool
  | tick .. => true
  | _ => false

/-- What an operation returns to its caller. -/
inductive Reply where
  | none
  | ticked (outcome : TickOutcome)
  | recorded (sent : Bool)
deriving DecidableEq

structure Step where
  reply : Reply
  output : Output
  after : Session

def step (session : Session) : Operation → Step
  | .start now => ⟨.none, {}, session.start now⟩
  | .stop => ⟨.none, {}, session.stop⟩
  | .reset => ⟨.none, {}, session.reset⟩
  | .tick source root now =>
      let (outcome, output, after) := session.tick source root now
      ⟨.ticked outcome, output, after⟩
  | .pointer kind view place now =>
      let (sent, output) := session.pointer kind view place now
      ⟨.recorded sent, output, session⟩
  | .touch touches now =>
      let (sent, output) := session.touch touches now
      ⟨.recorded sent, output, session⟩

/-- The steps of a run, the first operation's first. -/
def run (session : Session) : List Operation → List Step
  | [] => []
  | operation :: operations =>
      session.step operation :: (session.step operation).after.run operations

/-- The session after these operations. -/
def after (session : Session) (operations : List Operation) : Session :=
  operations.foldl (fun session operation => (session.step operation).after) session

/-- All that a run tells the outside. -/
def observed (steps : List Step) : List (Reply × Output) :=
  steps.map fun step => (step.reply, step.output)

theorem config_tick (source : View.Introspector) (root : ViewHandle) (now : Timestamp)
    (session : Session) : (session.tick source root now).2.2.config = session.config := by
  unfold tick
  split
  case isTrue =>
    dsimp only
    split <;> rfl
  case isFalse => rfl

/-- An operation leaves the configuration as it is. -/
theorem config_step (session : Session) (operation : Operation) :
    (session.step operation).after.config = session.config := by
  cases operation with
  | start now =>
      change (session.start now).config = session.config
      unfold start
      split <;> rfl
  | stop => rfl
  | reset => rfl
  | tick source root now => exact config_tick source root now session
  | pointer kind view place now => rfl
  | touch touches now => rfl

theorem after_append (session : Session) (operations more : List Operation) :
    session.after (operations ++ more) = (session.after operations).after more :=
  List.foldl_append

theorem after_concat (session : Session) (operations : List Operation) (operation : Operation) :
    session.after (operations ++ [operation]) =
      ((session.after operations).step operation).after :=
  session.after_append operations [operation]

theorem config_after (session : Session) (operations : List Operation) :
    (session.after operations).config = session.config := by
  induction operations generalizing session with
  | nil => rfl
  | cons operation operations induction =>
      exact (induction (session.step operation).after).trans (config_step session operation)

theorem run_concat (session : Session) (operations : List Operation) (operation : Operation) :
    session.run (operations ++ [operation]) =
      session.run operations ++ [(session.after operations).step operation] := by
  induction operations generalizing session with
  | nil => rfl
  | cons first operations induction =>
      rw [List.cons_append, run, run, induction]
      rfl

theorem length_run (session : Session) (operations : List Operation) :
    (session.run operations).length = operations.length := by
  induction operations generalizing session with
  | nil => rfl
  | cons operation operations induction => rw [run, List.length_cons, induction, List.length_cons]

end SessionReplay.Session
