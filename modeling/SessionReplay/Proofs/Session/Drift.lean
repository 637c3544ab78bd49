import SessionReplay.Proofs.Session.Playback

/-!
How a player drifts. When a field is first shown without a family and then with one that is not
legible, the new family arrives as a property, but a full snapshot of the same document would not
give it back. So the player follows every run if and only if all families are legible.
-/

namespace SessionReplay

namespace Document

/-- Where one child stays, and everything else with it, only its face can change. -/
theorem changes_single {oldTop newTop old new : Node} (top : oldTop.id = newTop.id)
    (oldDocument : oldTop.kind = .document) (newDocument : newTop.kind = .document)
    (same : old.id = new.id) (shape : old.kind.sameShape new.kind) :
    changes (.node oldTop [.node old []]) (.node newTop [.node new []]) =
      .ok (faceChanges old new).records := by
  have stays : staying [Tree.node old []] [Tree.node new []] = [some 0] := by
    simp [staying, counterpart?, same, shape, Tree.data, keepMasked, LongestRun.mask,
      LongestRun.positions, LongestRun.runs, LongestRun.place, LongestRun.Run.positions]
  have none : faceChanges oldTop newTop = {} := by
    simp only [faceChanges, oldDocument, newDocument]
  have alike : oldTop.id = newTop.id ∧ oldTop.kind.sameShape newTop.kind = true := by
    rw [oldDocument, newDocument]
    exact ⟨top, rfl⟩
  rw [changes, Tree.data, Tree.data, if_pos alike]
  apply congrArg Except.ok
  have empty : ∀ changes : Changes,
      changes ++ {} = changes ∧ ({} : Changes) ++ changes = changes := by
    intro changes
    constructor
    · change Changes.mk _ _ _ _ = _
      simp
    · rfl
  have moves : ({ removes := removals newTop.id [Tree.node old []] [some 0]
                  adds := additions newTop.id [Tree.node new []] [some 0] } : Changes) = {} := rfl
  have below : changesBelow ([some 0].map fun position => position.bind ([Tree.node old []][·]?))
      [Tree.node new []] = faceChanges old new ++ {} ++ {} ++ {} := rfl
  simp only [changesAt, Tree.children, Tree.data, stays, none, moves, below, empty]

theorem length_faceChanges (old new : Node) : (faceChanges old new).records.length ≤ 1 := by
  unfold faceChanges
  dsimp only
  split
  case h_1 => split <;> simp [Changes.records]
  case h_2 => split <;> simp [Changes.records]
  case h_3 => simp [Changes.records]

end Document

namespace Session

open SessionReplay.Capture (Sighting census)
open SessionReplay.Identity (Counted Registry)
open SessionReplay.Wire (Page consumeAll)

/-- A host with a single view, a field that is empty. -/
def fieldHost (family : Option String) : View.Introspector where
  kind _ := .ok .input
  frame _ := .ok .zero
  clip _ := .ok none
  paint _ := .ok {}
  text _ := .ok (some { typography := { family } })
  image _ := .ok none
  children _ := []
  masking _ := none

theorem survey_field (family : Option String) (root : ViewHandle) :
    ∃ (top below : Sighting) (element : Element),
      ((({} : Config).settings.surveyor (fieldHost family)).survey root).1 =
        .node top [.node below []] ∧
      top.key = ⟨root, .document⟩ ∧ top.face.kind = .document ∧
      below.key = ⟨root, .view⟩ ∧ below.face.kind = .element element ∧ element.tag = .input ∧
      ∀ name, family = some name → element.style["font-family"]? = some name := by
  refine ⟨_, _, _, rfl, rfl, rfl, rfl, rfl, rfl, ?_⟩
  rintro name rfl
  rw [Properties.getElem?_extend]
  apply Option.or_eq_some_iff.mpr
  exact .inl (Style.getElem?_derived_family _ _ _ rfl)

theorem census_field (family : Option String) (registry : Registry) (root : ViewHandle) :
    ∃ (top below : Capture.Numbered) (element : Element),
      census ({} : Config).settings (fieldHost family) registry root = .node top [.node below []] ∧
      top.sighting.key = ⟨root, .document⟩ ∧ top.sighting.face.kind = .document ∧
      below.sighting.key = ⟨root, .view⟩ ∧ below.sighting.face.kind = .element element ∧
      element.tag = .input ∧
      ∀ name, family = some name → element.style["font-family"]? = some name := by
  obtain ⟨top, below, element, seen, rest⟩ := survey_field family root
  rw [← Capture.map_sighting_census registry] at seen
  obtain ⟨first, children, whole⟩ : ∃ first children,
      census ({} : Config).settings (fieldHost family) registry root = .node first children := by
    cases census ({} : Config).settings (fieldHost family) registry root
    exact ⟨_, _, rfl⟩
  rw [whole, Tree.map_node] at seen
  obtain ⟨rfl, childrenSeen⟩ := Tree.node.inj seen
  obtain ⟨⟨second, grandchildren⟩, rfl, childSeen⟩ := List.map_eq_singleton_iff.mp childrenSeen
  rw [Tree.map_node] at childSeen
  obtain ⟨rfl, none⟩ := Tree.node.inj childSeen
  rw [List.map_eq_nil_iff.mp none] at whole
  exact ⟨first, second, element, whole, rest⟩

/-- The family of the field is set from the second tick on. -/
def fieldRun (family : String) : List Operation :=
  [.start ⟨0⟩, .tick (fieldHost none) ⟨1⟩ ⟨1⟩, .tick (fieldHost (some family)) ⟨1⟩ ⟨2⟩]

theorem reachesOnce_fieldHost (family : Option String) : (fieldHost family).ReachesOnce ⟨1⟩ :=
  View.Introspector.reachesOnce_of_alone rfl

theorem reachesOnce_fieldRun (family : String) :
    ∀ operation ∈ fieldRun family, operation.ReachesOnce := by
  intro operation member
  simp only [fieldRun, List.mem_cons, List.not_mem_nil, or_false] at member
  rcases member with rfl | rfl | rfl
  · exact trivial
  · exact reachesOnce_fieldHost none
  · exact reachesOnce_fieldHost (some family)

theorem setsIn_fieldRun {families : String → Prop} {family : String} (one : families family) :
    ∀ operation ∈ fieldRun family, operation.SetsIn families := by
  intro operation member
  simp only [fieldRun, List.mem_cons, List.not_mem_nil, or_false] at member
  rcases member with rfl | rfl | rfl
  · exact trivial
  · intro view _ name set
    contradiction
  · intro view _ name set
    cases set
    exact one

section Field

/-- The first capture of the field. -/
def firstField : Capture.Outcome :=
  Capture.capture ({} : Config).settings (fieldHost none) .new ⟨1⟩ 1

def secondField (family : String) : Capture.Outcome :=
  Capture.capture ({} : Config).settings (fieldHost (some family)) firstField.registry ⟨1⟩ 2

theorem firstField_left : firstField.registry.exhausted = false ∧
    firstField.registry.next.val.toNat ≤ 3 := by
  obtain ⟨top, below, element, whole, -⟩ := census_field none .new ⟨1⟩
  have room := Capture.room_capture ({} : Config).settings (fieldHost none) ⟨1⟩ 1
    (show Registry.new.exhausted = false from rfl)
  rw [whole] at room
  apply room
  change 1 + 2 ≤ 4294967295
  decide

theorem secondField_left (family : String) : (secondField family).registry.exhausted = false := by
  obtain ⟨left, next⟩ := firstField_left
  obtain ⟨top, below, element, whole, -⟩ := census_field (some family) firstField.registry ⟨1⟩
  have room := Capture.room_capture ({} : Config).settings (fieldHost (some family)) ⟨1⟩ 2 left
  rw [whole] at room
  apply (room _).1
  change firstField.registry.next.val.toNat + 2 ≤ 4294967295
  omega

/-- The changes between the two captures are those of the field alone. -/
theorem changes_field (family : String) : ∃ old new : Node,
    Document.changes firstField.tree (secondField family).tree =
      .ok (Document.faceChanges old new).records ∧
    new ∈ (secondField family).tree.preorder ∧
    ∃ element, new.kind = .element element ∧ element.style["font-family"]? = some family := by
  obtain ⟨top, below, element, whole, topKey, topKind, belowKey, belowKind, tag, -⟩ :=
    census_field none .new ⟨1⟩
  obtain ⟨newTop, newBelow, newElement, newWhole, newTopKey, newTopKind, newBelowKey, newBelowKind,
    newTag, set⟩ := census_field (some family) firstField.registry ⟨1⟩
  have fresh : Registry.new.exhausted = false → Counted Registry.new :=
    fun _ => Registry.counted_startingAt _
  have kept : ∀ former ∈ (Tree.node top [.node below []]).preorder,
      ∀ latter ∈ (Tree.node newTop [.node newBelow []]).preorder,
      latter.sighting.key = former.sighting.key → latter.id = former.id := by
    rw [← whole, ← newWhole]
    intro former before latter after
    exact Capture.id_kept fresh firstField_left.1 before after
  have topSame : newTop.id = top.id :=
    kept top (by simp [Tree.preorder_node]) newTop (by simp [Tree.preorder_node])
      (newTopKey.trans topKey.symm)
  have belowSame : newBelow.id = below.id :=
    kept below (by simp [Tree.preorder_node]) newBelow (by simp [Tree.preorder_node])
      (newBelowKey.trans belowKey.symm)
  have first : firstField.tree = .node top.node [.node below.node []] := by
    rw [firstField, ← Capture.map_node_census, whole]
    rfl
  have second : (secondField family).tree = .node newTop.node [.node newBelow.node []] := by
    rw [secondField, ← Capture.map_node_census, newWhole]
    rfl
  have shape : below.node.kind.sameShape newBelow.node.kind = true := by
    change below.sighting.face.kind.sameShape newBelow.sighting.face.kind = true
    rw [belowKind, newBelowKind, Kind.sameShape, tag, newTag]
    rfl
  refine ⟨below.node, newBelow.node, ?_, ?_, newElement, newBelowKind, set family rfl⟩
  · rw [first, second]
    exact Document.changes_single topSame.symm topKind newTopKind belowSame.symm shape
  · rw [second]
    simp [Tree.preorder_node]

theorem sound_firstField : Sound ({} : Wire.Encoder) firstField.tree :=
  sound_capture {} (by decide) (fun _ => Registry.counted_startingAt _)
    (reachesOnce_fieldHost none) firstField_left.1

theorem sound_secondField (family : String) :
    Sound ({} : Wire.Encoder) (secondField family).tree := by
  have counted : Counted firstField.registry :=
    Capture.counted_capture (fun _ => Registry.counted_startingAt _) firstField_left.1
  exact sound_capture {} (by decide) (fun _ => counted)
    (reachesOnce_fieldHost (some family)) (secondField_left family)

theorem legible_firstField : Legible firstField.tree := by
  apply Capture.legible_capture
  intro view _ name set
  contradiction

def fieldStarted : Session := { config := {}, state := .capturing, startedAt := some ⟨0⟩ }

def fieldShown : Session :=
  { fieldStarted with ticks := 1, registry := firstField.registry, prior := some firstField.tree }

theorem step_first : (fieldStarted.step (.tick (fieldHost none) ⟨1⟩ ⟨1⟩)).after = fieldShown := by
  have ticked := tick_capture fieldStarted (fieldHost none) ⟨1⟩ ⟨1⟩ rfl firstField_left.1
  exact ticked.2

theorem step_second (family : String) :
    let operation := Operation.tick (fieldHost (some family)) ⟨1⟩ ⟨2⟩
    (fieldShown.step operation).output.events = (send {} 2 ⟨2⟩ (some firstField.tree) .noPriorTree
        (secondField family).tree).2.events ∧
      (fieldShown.step operation).after.prior = some (secondField family).tree ∧
      (fieldShown.step operation).after.registry = (secondField family).registry := by
  have ticked := tick_capture fieldShown (fieldHost (some family)) ⟨1⟩ ⟨2⟩ rfl
    (secondField_left family)
  exact ⟨ticked.1, congrArg Session.prior ticked.2, congrArg Session.registry ticked.2⟩

theorem left_fieldRun (family : String) :
    ∀ step ∈ Session.run { config := {} } (fieldRun family),
      step.after.registry.exhausted = false := by
  have started : (Session.step { config := {} } (.start ⟨0⟩)).after = fieldStarted := rfl
  intro step member
  simp only [fieldRun, run, started, step_first, List.mem_cons, List.not_mem_nil,
    or_false] at member
  rcases member with rfl | rfl | rfl
  · rfl
  · rw [step_first]
    exact firstField_left.1
  · rw [(step_second family).2.2]
    exact secondField_left family

/-- A player that follows this run has read the family back. -/
theorem legible_of_faithful {family : String}
    (faithful : Session.Faithful { config := {} } none (fieldRun family)) :
    Style.LegibleValue family := by
  obtain ⟨start, -, -, page, -, shown, last, consumed, shownLast, -⟩ := faithful
  have started : (Session.step { config := {} } (.start ⟨0⟩)).after = fieldStarted := rfl
  rw [started, step_first] at consumed shownLast
  rw [started, step_first] at shown
  have before : page = some (firstField.tree.map (({} : Wire.Encoder).item id)) := by
    obtain ⟨tree, prior, rfl⟩ := shown rfl rfl
    cases prior
    exact congrArg some (read_legible {} (by decide) sound_firstField legible_firstField)
  have after : last =
      some ((secondField family).tree.map (({} : Wire.Encoder).item Style.reread)) := by
    obtain ⟨tree, prior, rfl⟩ := shownLast rfl rfl
    rw [(step_second family).2.1] at prior
    cases prior
    exact congrArg some (Wire.Encoder.read_encodeTree _ (sound_secondField family).drawing
      (Nat.le_refl _) (by decide))
  obtain ⟨old, new, compared, inside, element, kind, set⟩ := changes_field family
  -- The increment brings the page to the second document itself, so that reading the snapshot of
  -- this document must give it back.
  have sent : consumeAll page (fieldShown.step
      (.tick (fieldHost (some family)) ⟨1⟩ ⟨2⟩)).output.events =
      some (some ((secondField family).tree.map (({} : Wire.Encoder).item id))) := by
    rw [(step_second family).1]
    simp only [send, compared]
    apply consume_increment {} before
    · apply Wire.Encoder.play_mutationOf _ compared sound_firstField.distinct
        (sound_secondField family).distinct sound_firstField.drawing
        (sound_secondField family).drawing (Nat.le_refl _)
      intro parent next subtree member
      have added := (Document.sorted_faceChanges old new).mem_adds member
      rw [(Document.faceChanges_moves_nothing old new).2] at added
      contradiction
    · intro many
      have few := Document.length_faceChanges old new
      change 1000 < _ at many
      omega
  rw [consumed, after] at sent
  have same := congrArg Tree.preorder (Option.some.inj (Option.some.inj sent))
  rw [Tree.preorder_map, Tree.preorder_map] at same
  have reread := List.map_inj_left.mp same new inside
  simp only [Wire.Encoder.item, kind, Wire.Item.element.injEq] at reread
  have style : element.style.reread = element.style := reread.2.2.2
  rw [← style] at set
  exact (Style.legible_parse _ _ _ set).2

/-- A player follows every run, of every configuration and over every host, if and only if the
families that the texts are set in are read back. -/
theorem faithful_iff_legible (families : String → Prop) :
    (∀ (config : Config) (page : Option Page) (operations : List Operation),
      1 ≤ config.encoder.maxDepth →
      (∀ operation ∈ operations, operation.ReachesOnce) →
      (∀ operation ∈ operations, operation.SetsIn families) →
      (∀ step ∈ Session.run { config } operations, step.after.registry.exhausted = false) →
      Session.Faithful { config } page operations) ↔
    ∀ family, families family → Style.LegibleValue family := by
  constructor
  · intro all family one
    apply legible_of_faithful
    exact all {} none (fieldRun family) (by decide) (reachesOnce_fieldRun family)
      (setsIn_fieldRun one) (left_fieldRun family)
  · intro legible config page operations deep once set left
    apply faithful_of_legible page deep once _ left
    intro operation member
    have inFamilies := set operation member
    cases operation with
    | tick source root now =>
        intro view reached family shown
        exact legible family (inFamilies view reached family shown)
    | start now => exact trivial
    | stop => exact trivial
    | reset => exact trivial
    | pointer kind view place now => exact trivial
    | touch touches now => exact trivial

end Field

end Session

end SessionReplay
