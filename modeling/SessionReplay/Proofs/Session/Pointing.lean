import SessionReplay.Proofs.Capture.Naming
import SessionReplay.Proofs.Session.Effect

/-!
The targets of pointers and touches. They are looked up in the registry, but what is promised is
about the last document: a view can be pointed at while a session is capturing, has a document, and
the document has an element for the view, and then it goes by the id of that element.
-/

namespace SessionReplay

namespace Capture

open SessionReplay.Identity (Reachable Registry)

/-- What stands for a view is an element. -/
theorem element_of_stands {source : View.Introspector} {tree : Tree Sighting}
    (stands : Stands source tree) :
    ∀ sighting ∈ tree.preorder, sighting.key.role = .view →
      sighting.face.kind.element?.isSome = true := by
  induction stands with
  | @element top element children text role kind first below induction =>
      intro sighting member own
      rw [Tree.preorder_node, List.flatMap_append] at member
      rcases List.mem_cons.mp member with rfl | member
      · rw [kind]
        rfl
      · rcases List.mem_append.mp member with inText | inChild
        · obtain ⟨tree, listed, inside⟩ := List.mem_flatMap.mp inText
          obtain ⟨content, -, rfl⟩ := List.mem_map.mp listed
          rw [List.mem_singleton.mp inside] at own
          contradiction
        · obtain ⟨child, listed, inside⟩ := List.mem_flatMap.mp inChild
          exact induction child listed sighting inside own

theorem element_of_view (surveyor : Surveyor) (root : ViewHandle) :
    ∀ sighting ∈ (surveyor.survey root).1.preorder, sighting.key.role = .view →
      sighting.face.kind.element?.isSome = true := by
  obtain ⟨face, child, top, -, -, stands⟩ := top_survey surveyor root
  rw [top]
  intro sighting member own
  rw [Tree.preorder_node, List.flatMap_singleton] at member
  rcases List.mem_cons.mp member with rfl | below
  · contradiction
  · exact element_of_stands stands sighting below own

end Capture

namespace Session

open SessionReplay.Identity (Reachable Registry)

/-- What a tick looks at. -/
structure Look where
  source : View.Introspector
  root : ViewHandle

/-- What an operation looks at when it captures. -/
def look? (session : Session) : Operation → Option Look
  | .tick source root _ => if session.isCapturing then some ⟨source, root⟩ else none
  | _ => none

/-- What the last capture of a run has looked at. -/
def lastLook? (session : Session) : List Operation → Option Look
  | [] => none
  | operation :: operations =>
      (lastLook? (session.step operation).after operations).or (session.look? operation)

/-- The document has an element for this view, with this id: in document order the node is at the
place at which the view was seen, and it shows what was seen there. -/
def Shows (settings : Capture.Settings) (look : Look) (tree : Tree Node) (view : ViewHandle)
    (id : NodeId) : Prop :=
  ∃ (place : Nat) (sighting : Capture.Sighting) (node : Node),
    ((settings.surveyor look.source).survey look.root).1.preorder[place]? = some sighting ∧
      tree.preorder[place]? = some node ∧ sighting.key = ⟨view, .view⟩ ∧
      node.toFace = sighting.face ∧ node.kind.element?.isSome = true ∧ node.id = id

/-- The view has an element in the last document of a session that captures. -/
def Known (session : Session) (last? : Option Look) (view : ViewHandle) (id : NodeId) : Prop :=
  session.isCapturing = true ∧ ∃ look tree, last? = some look ∧ session.prior = some tree ∧
    Shows session.config.settings look tree view id

theorem shows_capture {settings : Capture.Settings} {look : Look} {registry : Registry}
    {tick : UInt64} (reachable : Reachable registry) {view : ViewHandle} {id : NodeId} :
    Shows settings look
        (Capture.capture settings look.source registry look.root tick).tree view id ↔
      (Capture.capture settings look.source registry look.root tick).registry.get?
        ⟨view, .view⟩ = some id := by
  rw [Capture.get?_capture reachable, Shows, ← Capture.map_sighting_census registry,
    ← Capture.map_node_census]
  simp only [Tree.preorder_map, List.getElem?_map, Option.map_eq_some_iff]
  constructor
  · rintro ⟨place, sighting, node, ⟨entry, there, rfl⟩, ⟨other, same, rfl⟩, key, -, -, rfl⟩
    rw [there] at same
    cases same
    exact ⟨entry, List.mem_of_getElem? there, key, rfl⟩
  · rintro ⟨entry, member, key, rfl⟩
    obtain ⟨place, there⟩ := List.mem_iff_getElem?.mp member
    have seen : entry.sighting ∈
        ((settings.surveyor look.source).survey look.root).1.preorder := by
      rw [← Capture.map_sighting_census registry, Tree.preorder_map]
      exact List.mem_map_of_mem member
    have role : entry.sighting.key.role = .view := by rw [key]
    have element := Capture.element_of_view _ _ _ seen role
    exact ⟨place, _, _, ⟨entry, there, rfl⟩, ⟨entry, there, rfl⟩, key, rfl, element, rfl⟩

/-- Whenever there is a document, the registry is as the capture of the document left it. -/
structure Tracking (session : Session) (last? : Option Look) : Prop where
  reachable : Reachable session.registry
  captured : ∀ tree, session.prior = some tree → ∃ look registry tick,
    last? = some look ∧ Reachable registry ∧
      tree = (Capture.capture session.config.settings look.source registry look.root tick).tree ∧
      session.registry =
        (Capture.capture session.config.settings look.source registry look.root tick).registry

section Tracking

variable {session : Session} {last? : Option Look}

theorem tracking_step (tracking : Tracking session last?) (operation : Operation) :
    Tracking (session.step operation).after ((session.look? operation).or last?) := by
  have effect := effect_step session operation
  generalize session.step operation = step at effect ⊢
  have fresh : Reachable Registry.new := ⟨.first, [], rfl⟩
  cases effect with
  | resumed now active => exact tracking
  | started now idle => exact ⟨tracking.reachable, nofun⟩
  | stopped => exact ⟨tracking.reachable, nofun⟩
  | reset => exact ⟨fresh, nofun⟩
  | ignored source root now idle =>
      have unseen : session.look? (.tick source root now) = none := by simp [look?, idle]
      rw [unseen]
      exact tracking
  | @captured source root now registry captured outcome events reports emissions active supply
      capture amid sends =>
      have reachable : Reachable registry := by
        rcases supply with rfl | rfl
        · exact tracking.reachable
        · exact fresh
      have seen : session.look? (.tick source root now) = some ⟨source, root⟩ := if_pos active
      subst capture
      rw [seen]
      have later : Reachable (Capture.capture session.config.settings source registry root
          (session.ticks + 1)).registry := Capture.reachable_capture reachable
      constructor
      · exact later
      · rintro tree ⟨⟩
        exact ⟨_, registry, _, rfl, reachable, rfl, rfl⟩
  | pointed kind place now known => exact tracking
  | missed kind place now unknown => exact tracking
  | touched now some => exact tracking
  | untouched now none => exact tracking

theorem lastLook?_concat (session : Session) (operations : List Operation)
    (operation : Operation) :
    lastLook? session (operations ++ [operation]) =
      ((session.after operations).look? operation).or (lastLook? session operations) := by
  induction operations generalizing session with
  | nil => simp [lastLook?, after]
  | cons first operations induction =>
      rw [List.cons_append, lastLook?, induction, lastLook?, Option.or_assoc]
      rfl

theorem tracking_after (config : Config) (operations : List Operation) :
    Tracking (after { config } operations) (lastLook? { config } operations) := by
  induction operations using List.reverseRecOn with
  | nil => exact ⟨⟨.first, [], rfl⟩, nofun⟩
  | append_singleton operations operation induction =>
      rw [after_concat, lastLook?_concat]
      exact tracking_step induction operation

theorem target?_iff_known (tracking : Tracking session last?) {view : ViewHandle} {id : NodeId} :
    session.target? view = some id ↔ Known session last? view id := by
  unfold target? Known
  by_cases active : session.isCapturing = true
  · cases prior : session.prior with
    | none => simp
    | some tree =>
        obtain ⟨look, registry, tick, rfl, reachable, rfl, held⟩ := tracking.captured tree prior
        simp only [active, Option.isSome_some, Bool.and_self, if_true, true_and, Option.some.injEq,
          held]
        rw [← shows_capture reachable]
        simp
  · simp [active]

/-- The touches on views with a target, each with its target. -/
def picked (session : Session) (touches : List Touch) : List (Touch × NodeId) :=
  touches.filterMap fun touch => (session.target? touch.view).map fun id => (touch, id)

theorem samples_picked (session : Session) (touches : List Touch) :
    touches.filterMap (Touch.sample? session) =
      (picked session touches).map fun pick => ⟨pick.2, pick.1.place, pick.1.time⟩ := by
  rw [picked, List.map_filterMap]
  apply List.filterMap_congr
  intro touch _
  rw [Option.map_map]
  rfl

theorem map_fst_picked {keep : Touch → Bool} (touches : List Touch)
    (same : ∀ touch, keep touch = true ↔ ∃ id, session.target? touch.view = some id) :
    (picked session touches).map Prod.fst = touches.filter keep := by
  induction touches with
  | nil => rfl
  | cons touch touches induction =>
      rw [picked] at induction ⊢
      rw [List.filter_cons, ← induction]
      cases target : session.target? touch.view <;> simp [same, target]

open scoped Classical in
/-- What a session does with pointers and touches, when this is what was looked at last. -/
structure Points (session : Session) (last? : Option Look) : Prop where
  accepted : ∀ kind view place now,
    (session.step (.pointer kind view place now)).reply = .recorded true ↔
      ∃ id, Known session last? view id
  pointed : ∀ kind view place now id, Known session last? view id →
    (session.step (.pointer kind view place now)).output.events =
      [Wire.encodePointer kind id place now]
  missed : ∀ kind view place now, (∀ id, ¬Known session last? view id) →
    (session.step (.pointer kind view place now)).reply = .recorded false ∧
      (session.step (.pointer kind view place now)).output.events = []
  /-- One event has the touches on known views, in order, each with the id of the view's element.
  Where there are none nothing is sent. -/
  touched : ∀ touches now, ∃ picked : List (Touch × NodeId),
    picked.map Prod.fst =
        touches.filter (fun touch => decide (∃ id, Known session last? touch.view id)) ∧
      (∀ pick ∈ picked, Known session last? pick.1.view pick.2) ∧
      (picked ≠ [] → (session.step (.touch touches now)).reply = .recorded true ∧
        (session.step (.touch touches now)).output.events =
          [Wire.encodeTouch
            (picked.map fun pick => ⟨pick.2, pick.1.place, pick.1.time⟩) now]) ∧
      (picked = [] → (session.step (.touch touches now)).reply = .recorded false ∧
        (session.step (.touch touches now)).output.events = [])
  /-- Neither changes anything in the session. -/
  still : (∀ kind view place now,
      (session.step (.pointer kind view place now)).after = session) ∧
    ∀ touches now, (session.step (.touch touches now)).after = session

theorem step_pointer (session : Session) (kind : Wire.PointerKind) (view : ViewHandle)
    (place : Point) (now : Timestamp) :
    (∃ id, session.target? view = some id ∧
      (session.step (.pointer kind view place now)).reply = .recorded true ∧
      (session.step (.pointer kind view place now)).output.events =
        [Wire.encodePointer kind id place now]) ∨
    (session.target? view = none ∧
      (session.step (.pointer kind view place now)).reply = .recorded false ∧
      (session.step (.pointer kind view place now)).output.events = []) := by
  have effect := effect_step session (.pointer kind view place now)
  generalize session.step (.pointer kind view place now) = step at effect ⊢
  cases effect with
  | pointed kind place now known => exact .inl ⟨_, known, rfl, rfl⟩
  | missed kind place now unknown => exact .inr ⟨unknown, rfl, rfl⟩

theorem points_of_tracking (tracking : Tracking session last?) : Points session last? := by
  have target : ∀ view id, session.target? view = some id ↔ Known session last? view id :=
    fun _ _ => target?_iff_known tracking
  constructor
  case accepted =>
    intro kind view place now
    simp only [← target]
    rcases step_pointer session kind view place now with ⟨id, known, sent, -⟩ |
      ⟨unknown, refused, -⟩
    · exact iff_of_true sent ⟨id, known⟩
    · rw [refused, unknown]
      simp
  case pointed =>
    intro kind view place now id known
    rw [← target] at known
    rcases step_pointer session kind view place now with ⟨other, same, -, events⟩ | ⟨unknown, -⟩
    · rw [known] at same
      cases same
      exact events
    · rw [known] at unknown
      contradiction
  case missed =>
    intro kind view place now none
    rcases step_pointer session kind view place now with ⟨id, known, -⟩ | ⟨-, refused⟩
    · exact absurd ((target view id).mp known) (none id)
    · exact refused
  case touched =>
    intro touches now
    refine ⟨picked session touches, ?_, ?_, ?_⟩
    · apply map_fst_picked
      intro touch
      simp only [decide_eq_true_eq, target]
    · intro pick member
      obtain ⟨touch, -, made⟩ := List.mem_filterMap.mp member
      obtain ⟨id, known, rfl⟩ := Option.map_eq_some_iff.mp made
      exact (target _ _).mp known
    · have effect := effect_step session (.touch touches now)
      generalize session.step (.touch touches now) = step at effect ⊢
      cases effect with
      | touched now some =>
          rw [samples_picked] at some ⊢
          exact ⟨fun _ => ⟨rfl, rfl⟩, fun none => absurd (congrArg _ none) some⟩
      | untouched now none =>
          rw [samples_picked, List.map_eq_nil_iff] at none
          exact ⟨fun some => absurd none some, fun _ => ⟨rfl, rfl⟩⟩
  case still => exact ⟨fun _ _ _ _ => rfl, fun _ _ => rfl⟩

end Tracking

/-- A view of the gallery can be pointed at after a tick, and no longer after a reset. -/
example :
    let seen := after { config := {} } [.start ⟨0⟩, .tick Capture.gallery ⟨1⟩ ⟨1⟩]
    (seen.step (.pointer .click ⟨2⟩ ⟨0, 0⟩ ⟨2⟩)).reply = .recorded true ∧
      (seen.reset.step (.pointer .click ⟨2⟩ ⟨0, 0⟩ ⟨2⟩)).reply = .recorded false := by
  decide +kernel

end Session

end SessionReplay
