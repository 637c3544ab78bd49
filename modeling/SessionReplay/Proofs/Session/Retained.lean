import SessionReplay.Proofs.Capture.Naming
import SessionReplay.Proofs.Session.Playback

/-!
The document that a session keeps, against what was sent of it. A capture goes as deep as the
encoder and no deeper, whatever the limits are, so that nothing of the document is left out and
nothing is marked that the capture has not marked. The one exception is an encoder that sends the
document node alone: a capture always has the root view.
-/

namespace SessionReplay

namespace Wire

mutual

/-- The ids of what is sent, in document order, and whether the mark of truncation stands there. -/
def Node.labels : Node → List (Id × Bool)
  | .document id children => (id, false) :: Node.labelsAll children
  | .element id _ attributes children =>
      (id, attributes.contains truncationMark) :: Node.labelsAll children
  | .text id _ _ => [(id, false)]

def Node.labelsAll : List Node → List (Id × Bool)
  | [] => []
  | node :: nodes => node.labels ++ Node.labelsAll nodes

end

def Item.label : Item → Id × Bool
  | .document id => (id, false)
  | .element id _ attributes _ => (id, attributes.contains truncationMark)
  | .text id _ _ => (id, false)

theorem contains_mark_erase_style (attributes : Attributes) :
    (attributes.erase "style").contains truncationMark = attributes.contains truncationMark := by
  rw [Std.ExtTreeMap.contains_erase]
  simp [truncationMark]

mutual

/-- A player reads the labels that were sent. -/
theorem label_read : (node : Node) → (read node).preorder.map Item.label = node.labels
  | .document id children => by
      rw [read, Tree.preorder, List.map_cons, label_readAll children, Node.labels, Item.label]
  | .element id tag attributes children => by
      rw [read, Tree.preorder, List.map_cons, label_readAll children, Node.labels, Item.label,
        contains_mark_erase_style]
  | .text id content isStyle => rfl

theorem label_readAll : (nodes : List Node) →
    (Tree.preorderAll (readAll nodes)).map Item.label = Node.labelsAll nodes
  | [] => rfl
  | node :: nodes => by
      rw [readAll, Tree.preorderAll, List.map_append, label_read node, label_readAll nodes,
        Node.labelsAll]

end

namespace Encoder

variable (encoder : Encoder)

theorem label_item (restyle : Style → Style) (node : SessionReplay.Node) :
    (encoder.item restyle node).label = (.node node.id, node.kind.isTruncated) := by
  unfold item Kind.isTruncated
  split
  case h_1 kind => rw [kind]; rfl
  case h_2 element kind => rw [kind, Item.label, contains_mark_visibleAttributes]
  case h_3 content isStyle kind => rw [kind]; rfl

/-- Everything of the document is sent, and marked where it was marked before. -/
def Whole (tree : Tree SessionReplay.Node) : Prop :=
  (encoder.encodeTree tree).labels =
    tree.preorder.map fun node => (.node node.id, node.kind.isTruncated)

theorem whole_of_drawing {levels : Nat} {tree : Tree SessionReplay.Node}
    (drawing : Capture.Drawing levels tree) (room : levels ≤ encoder.maxDepth.toNat)
    (some : 1 ≤ encoder.maxDepth) : encoder.Whole tree := by
  rw [Whole, ← label_read, encoder.read_encodeTree drawing room some, Tree.preorder_map,
    List.map_map]
  exact List.map_congr_left fun node _ => encoder.label_item Style.reread node

/-- An encoder of no depth sends the document node alone. -/
theorem not_whole_of_flat {tree : Tree SessionReplay.Node} (flat : encoder.maxDepth = 0)
    (top : tree.data.kind = .document) (more : tree.children ≠ []) : ¬encoder.Whole tree := by
  obtain ⟨node, children⟩ := tree
  have document : node.kind = .document := top
  intro whole
  have lengths := congrArg List.length whole
  simp only [encodeTree, Tree.data, document, flat, if_true, Node.labels, Node.labelsAll,
    List.length_cons, List.length_nil, List.length_map, Tree.length_preorder, Tree.size] at lengths
  cases children with
  | nil => exact more rfl
  | cons child children =>
      have below := child.size_pos
      rw [Tree.sizeAll] at lengths
      omega

end Encoder

end Wire

namespace Session

open SessionReplay.Identity (Registry)

/-- The whole of a captured document is sent, unless the encoder has no depth. -/
theorem whole_capture (config : Config) (source : View.Introspector) (registry : Registry)
    (root : ViewHandle) (tick : UInt64) :
    config.encoder.Whole (Capture.capture config.settings source registry root tick).tree ↔
      1 ≤ config.encoder.maxDepth := by
  have drawing : Capture.Drawing (config.settings.limits.maxDepth.toNat - 1 + 1)
      (Capture.capture config.settings source registry root tick).tree := Capture.drawing_capture
  constructor
  · intro whole
    obtain ⟨node, view, single⟩ :=
      Capture.single_capture config.settings source registry root tick
    have more : (Capture.capture config.settings source registry root tick).tree.children ≠ [] := by
      rw [single]
      exact List.cons_ne_nil view []
    by_contra shallow
    have flat : config.encoder.maxDepth = 0 := by
      apply UInt32.toNat_inj.mp
      rw [UInt32.le_iff_toNat_le] at shallow
      change ¬1 ≤ config.encoder.maxDepth.toNat at shallow
      change config.encoder.maxDepth.toNat = 0
      omega
    exact config.encoder.not_whole_of_flat flat drawing.top more whole
  · intro deep
    exact config.encoder.whole_of_drawing drawing (levels_settings deep) deep

/-- A document that some capture of a session with this configuration has made. -/
def Captured (config : Config) (tree : Tree Node) : Prop :=
  ∃ source registry root tick,
    tree = (Capture.capture config.settings source registry root tick).tree

theorem captured_tick (session : Session) (source : View.Introspector) (root : ViewHandle)
    (now : Timestamp) (capturing : session.isCapturing = true) :
    ∃ tree, (session.tick source root now).2.2.prior = some tree ∧
      Captured session.config tree := by
  unfold tick
  rw [if_pos capturing]
  dsimp only
  split
  · exact ⟨_, rfl, source, _, root, _, rfl⟩
  · exact ⟨_, rfl, source, _, root, _, rfl⟩

theorem captured_step (session : Session) (operation : Operation)
    (kept : ∀ tree, session.prior = some tree → Captured session.config tree) :
    ∀ tree, (session.step operation).after.prior = some tree → Captured session.config tree := by
  cases operation with
  | start now =>
      change ∀ tree, (session.start now).prior = some tree → _
      unfold start
      split
      case isTrue => exact kept
      case isFalse => nofun
  | stop => nofun
  | reset => nofun
  | tick source root now =>
      change ∀ tree, (session.tick source root now).2.2.prior = some tree → _
      by_cases capturing : session.isCapturing = true
      · obtain ⟨made, prior, captured⟩ := captured_tick session source root now capturing
        rw [prior]
        rintro tree ⟨⟩
        exact captured
      · unfold tick
        rw [if_neg capturing]
        exact kept
  | pointer kind view place now => exact kept
  | touch touches now => exact kept

theorem captured_run (operations : List Operation) (session : Session)
    (kept : ∀ tree, session.prior = some tree → Captured session.config tree) :
    ∀ step ∈ session.run operations, ∀ tree, step.after.prior = some tree →
      Captured session.config tree := by
  induction operations generalizing session with
  | nil => exact List.forall_mem_nil _
  | cons operation operations induction =>
      have stepped := captured_step session operation kept
      rw [← config_step session operation] at stepped
      have later := induction _ stepped
      rw [run, List.forall_mem_cons]
      rw [config_step] at stepped later
      exact ⟨stepped, later⟩

/-- Whatever is done with a session, the document that it keeps has been sent as a whole. This goes
for every encoder but those of no depth. -/
theorem whole_iff_deep (config : Config) :
    (∀ (source : View.Introspector) (registry : Registry) (root : ViewHandle) (tick : UInt64),
      config.encoder.Whole (Capture.capture config.settings source registry root tick).tree ↔
        1 ≤ config.encoder.maxDepth) ∧
    ((∀ operations, ∀ step ∈ Session.run { config } operations, ∀ tree,
      step.after.prior = some tree → config.encoder.Whole tree) ↔ 1 ≤ config.encoder.maxDepth) := by
  constructor
  · exact whole_capture config
  · constructor
    · intro whole
      have started : (Session.start ⟨0⟩ { config }).isCapturing = true := rfl
      obtain ⟨tree, kept, source, registry, root, tick, rfl⟩ :=
        captured_tick _ Capture.gallery ⟨1⟩ ⟨1⟩ started
      have first := whole [.start ⟨0⟩, .tick Capture.gallery ⟨1⟩ ⟨1⟩]
      have sent := first ((Session.start ⟨0⟩ { config }).step (.tick Capture.gallery ⟨1⟩ ⟨1⟩))
        (List.mem_cons_of_mem _ List.mem_cons_self) _ kept
      exact (whole_capture config source registry root tick).mp sent
    · intro deep operations step member tree kept
      obtain ⟨source, registry, root, tick, rfl⟩ :=
        captured_run operations { config } nofun step member tree kept
      exact (whole_capture config source registry root tick).mpr deep

end Session

end SessionReplay
