import SessionReplay.Proofs.Session.Run
import SessionReplay.Proofs.Wire.Redaction

/-!
What a run tells of masked content. When a veil is laid, at each tick, over the content of the
views that are masked at that tick, nothing changes in what is returned and sent.
-/

namespace SessionReplay

/-- The session that has seen everything through the veil. -/
def Veil.session (veil : Veil) (session : Session) : Session :=
  { session with prior := session.prior.map (Tree.map veil.node) }

namespace Session

variable {veil : Veil}

/-- The operation with the veil over what is masked under these settings. -/
def Operation.veiled (veil : Veil) (settings : Capture.Settings) : Operation → Operation
  | tick source root now =>
      tick (veil.host ((settings.surveyor source).hides root) source) root now
  | other => other

theorem frame_node (node : Node) : (veil.node node).frame = node.frame :=
  veil.frame_face node.toFace

theorem snapshot_veiled (config : Config) (tick : UInt64) (now : Timestamp) (reason : Trace.Reason)
    (tree : Tree Node) :
    snapshot config tick now reason (tree.map veil.node) =
      snapshot config tick now reason tree := by
  simp only [snapshot, snapshotOutput, Wire.Encoder.encodeSnapshot, Tree.data_map, frame_node,
    Wire.Encoder.encodeTree_veiled]

theorem increment_veiled (config : Config) (tick : UInt64) (now : Timestamp)
    (records : List Record) (tree : Tree Node) :
    increment config tick now (records.map veil.record) (tree.map veil.node) =
      increment config tick now records tree := by
  have counted : Record.count (records.map veil.record) = Record.count records := by
    simp only [Record.count, List.countP_map]
    congr <;> funext record <;> cases record <;> rfl
  simp only [increment, counted, List.isEmpty_map, List.length_map, snapshot_veiled,
    Wire.Encoder.encodeRecords_veiled]

theorem send_veiled (veil : Veil) (config : Config) (tick : UInt64) (now : Timestamp)
    (prior : Option (Tree Node)) (reason : Trace.Reason) (tree : Tree Node) :
    send config tick now (prior.map (Tree.map veil.node)) reason (tree.map veil.node) =
      send config tick now prior reason tree := by
  cases prior with
  | none => exact snapshot_veiled config tick now reason tree
  | some prior =>
      simp only [send, Option.map_some, Document.changes_veiled]
      cases Document.changes prior tree with
      | error mismatch => exact snapshot_veiled config tick now .structuralMismatch tree
      | ok records => exact increment_veiled config tick now records tree

theorem tick_veiled (veil : Veil) (session : Session) {source : View.Introspector}
    {root : ViewHandle} (now : Timestamp) (once : source.ReachesOnce root) :
    (veil.session session).tick
        (veil.host ((session.config.settings.surveyor source).hides root) source) root now =
      ((session.tick source root now).1, (session.tick source root now).2.1,
        veil.session (session.tick source root now).2.2) := by
  have captured := fun registry tick =>
    Capture.capture_veiled veil session.config.settings source registry tick once
  have capturing : (veil.session session).isCapturing = session.isCapturing := rfl
  unfold tick
  rw [capturing]
  by_cases active : session.isCapturing
  · rw [if_pos active, if_pos active]
    simp only [Veil.session, captured]
    by_cases exhausted : (Capture.capture session.config.settings source session.registry root
        (session.ticks + 1)).registry.exhausted
    · have sent := send_veiled veil session.config (session.ticks + 1) now none
        .identityExhausted
      simp only [exhausted, if_true, Option.map_none] at sent ⊢
      simp only [sent]
      rfl
    · simp only [exhausted, send_veiled]
      rfl
  · rw [if_neg active, if_neg active]

theorem target?_veiled (session : Session) (view : ViewHandle) :
    (veil.session session).target? view = session.target? view := by
  have active : (veil.session session).isCapturing = session.isCapturing := rfl
  have known : (veil.session session).prior.isSome = session.prior.isSome := Option.isSome_map
  unfold target?
  rw [active, known]
  rfl

theorem step_veiled (veil : Veil) (session : Session) {operation : Operation}
    (once : operation.ReachesOnce) :
    (veil.session session).step (operation.veiled veil session.config.settings) =
      ⟨(session.step operation).reply, (session.step operation).output,
        veil.session (session.step operation).after⟩ := by
  cases operation with
  | start now =>
      by_cases active : session.isCapturing
      · have activeVeiled : (veil.session session).isCapturing = true := active
        simp only [Operation.veiled, step, start, active, activeVeiled, if_true]
      · have idleVeiled : (veil.session session).isCapturing = false := Bool.eq_false_iff.mpr active
        simp only [Operation.veiled, step, start, active, idleVeiled]
        rfl
  | stop => rfl
  | reset => rfl
  | tick source root now =>
      have ticked := tick_veiled veil session now once
      simp only [Operation.veiled, step, ticked]
  | pointer kind view place now =>
      simp only [Operation.veiled, step, pointer, target?_veiled]
      split <;> rfl
  | touch touches now =>
      have samples : Touch.sample? (veil.session session) = Touch.sample? session := by
        funext touch
        simp only [Touch.sample?, target?_veiled]
      simp only [Operation.veiled, step, touch, samples]
      split <;> rfl

theorem observed_veiled (session : Session) {operations : List Operation}
    (once : ∀ operation ∈ operations, operation.ReachesOnce) :
    observed ((veil.session session).run
        (operations.map (Operation.veiled veil session.config.settings))) =
      observed (session.run operations) := by
  induction operations generalizing session with
  | nil => rfl
  | cons operation operations induction =>
      obtain ⟨first, others⟩ := List.forall_mem_cons.mp once
      have stepped := step_veiled veil session first
      have rest := induction (session.step operation).after others
      rw [config_step] at rest
      simp only [observed, List.map_cons, run, stepped] at rest ⊢
      rw [rest]

/-- The masked content of the views stays inside. -/
theorem observed_run_veiled (config : Config) (veil : Veil) (operations : List Operation)
    (once : ∀ operation ∈ operations, operation.ReachesOnce) :
    observed (Session.run { config } (operations.map (Operation.veiled veil config.settings))) =
      observed (Session.run { config } operations) :=
  observed_veiled { config } once

/-- Texts written backwards. -/
def reversal : Veil where
  replace text := String.ofList text.toList.reverse
  injective := by
    intro first second same
    have letters := congrArg String.toList same
    simp only [String.toList_ofList] at letters
    exact String.toList_inj.mp (List.reverse_injective letters)
  length_replace text := by simp [String.length_toList]

/-- A host with a single view, which shows a masked text. -/
def secretHost (text : String) : View.Introspector where
  kind _ := .ok .text
  frame _ := .ok .zero
  clip _ := .ok none
  paint _ := .ok {}
  text _ := .ok (some { text })
  image _ := .ok none
  children _ := []
  masking _ := some .masked

theorem secretHost_reachesOnce (text : String) (root : ViewHandle) :
    (secretHost text).ReachesOnce root :=
  View.Introspector.reachesOnce_of_alone rfl

/-- The text changes from one tick to the next. -/
def secretRun : List Operation :=
  [.start ⟨0⟩, .tick (secretHost "pin 1234") ⟨1⟩ ⟨1⟩, .tick (secretHost "pin 5678") ⟨1⟩ ⟨2⟩]

theorem observed_run_veiled_secret :
    (∀ operation ∈ secretRun, operation.ReachesOnce) ∧
      observed (Session.run { config := {} }
        (secretRun.map (Operation.veiled reversal ({} : Config).settings))) =
      observed (Session.run { config := {} } secretRun) := by
  have once : ∀ operation ∈ secretRun, operation.ReachesOnce := by
    intro operation member
    simp only [secretRun, List.mem_cons, List.not_mem_nil, or_false] at member
    rcases member with rfl | rfl | rfl
    · exact trivial
    · exact secretHost_reachesOnce _ _
    · exact secretHost_reachesOnce _ _
  exact ⟨once, observed_run_veiled {} reversal secretRun once⟩

end Session

end SessionReplay
