import SessionReplay.Proofs.Capture.Numbering
import SessionReplay.Proofs.Capture.Reach
import SessionReplay.Proofs.Style.Derived

/-!
What a captured document looks like: elements and texts below one document node, texts without
children, and not more levels than the limits allow. The styles of its elements are legible when
the families of its texts are.
-/

namespace SessionReplay

/-- Elements and texts, as they are sent without losing anything. -/
inductive Drawn : Tree Face → Prop
  | text {face : Face} {content : String} {isStyle : Bool}
      (kind : face.kind = .text content isStyle) : Drawn (.node face [])
  | element {face : Face} {element : Element} {children : List (Tree Face)}
      (kind : face.kind = .element element) (plain : "style" ∉ element.attributes)
      (below : ∀ child ∈ children, Drawn child) : Drawn (.node face children)

theorem Drawn.plain {tree : Tree Face} (drawn : Drawn tree) {face : Face}
    (member : face ∈ tree.preorder) {element : Element} (kind : face.kind = .element element) :
    "style" ∉ element.attributes := by
  induction drawn with
  | text text =>
      rw [Tree.preorder_node] at member
      rw [List.mem_singleton.mp member, text] at kind
      contradiction
  | element inner plain _ induction =>
      rw [Tree.preorder_node] at member
      rcases List.mem_cons.mp member with rfl | below
      · rw [inner] at kind
        cases kind
        exact plain
      · obtain ⟨child, childMember, inside⟩ := List.mem_flatMap.mp below
        exact induction child childMember inside

theorem Drawn.inside {tree part : Tree Node} (drawn : Drawn (tree.map Node.toFace))
    (inside : Tree.Inside part tree) : Drawn (part.map Node.toFace) := by
  induction inside with
  | itself => exact drawn
  | inner member _ induction =>
      apply induction
      rw [Tree.map_node] at drawn
      generalize faces : List.map _ _ = below at drawn
      cases drawn with
      | text kind =>
          rw [List.map_eq_nil_iff.mp faces] at member
          contradiction
      | element kind plain drawn =>
          apply drawn
          rw [← faces]
          exact List.mem_map_of_mem member

/-- Elements and texts below one document node. -/
structure Sketch (tree : Tree Node) : Prop where
  top : tree.data.kind = .document
  below : ∀ child ∈ tree.children, Drawn (child.map Node.toFace)

theorem Sketch.plain {tree : Tree Node} (sketch : Sketch tree) {node : Node}
    (member : node ∈ tree.preorder) {element : Element} (kind : node.kind = .element element) :
    "style" ∉ element.attributes := by
  obtain ⟨top, children⟩ := tree
  rw [Tree.preorder_node] at member
  rcases List.mem_cons.mp member with rfl | below
  · have document : node.kind = .document := sketch.top
    rw [document] at kind
    contradiction
  · obtain ⟨child, childMember, inside⟩ := List.mem_flatMap.mp below
    have face : node.toFace ∈ (child.map Node.toFace).preorder := by
      rw [Tree.preorder_map]
      exact List.mem_map_of_mem inside
    exact (sketch.below child childMember).plain face kind

/-- Whether the style of an element is legible; other nodes have none. -/
def Face.Legible (face : Face) : Prop :=
  ∀ element, face.kind = .element element → Style.Legible element.style

/-- How a view dresses its element: over a style that was read, what is derived from the view,
with its text set in one of the families. -/
def Face.Dressed (families : String → Prop) (face : Face) : Prop :=
  ∀ element, face.kind = .element element →
    ∃ (declared : Style) (frame clip : Rect) (paint : Paint) (typography : Option Typography),
      declared.Legible ∧
      element.style = declared.extend (Style.derived frame clip paint typography) ∧
      ∀ family, typography.bind Typography.family = some family → families family

namespace Face.Dressed

variable {families : String → Prop} {face : Face}

theorem legible (dressed : face.Dressed families)
    (all : ∀ family, families family → Style.LegibleValue family) : face.Legible := by
  intro element kind
  obtain ⟨declared, frame, clip, paint, typography, read, style, set⟩ := dressed element kind
  rw [style]
  apply read.extend
  exact Style.legible_derived (fun family given => all family (set family given)) frame clip paint

/-- All of a style but the family of the text is legible in any case. -/
theorem legible_iff (dressed : face.Dressed families) {element : Element}
    (kind : face.kind = .element element) : Style.Legible element.style ↔
      ∀ family, families family → element.style["font-family"]? = some family →
        Style.LegibleValue family := by
  constructor
  · intro legible family _ set
    exact (legible "font-family" family set).2
  · intro legible
    obtain ⟨declared, frame, clip, paint, typography, read, style, set⟩ := dressed element kind
    rw [style] at legible ⊢
    apply read.extend
    apply Style.legible_derived
    intro family given
    apply legible family (set family given)
    rw [Properties.getElem?_extend, Style.getElem?_derived_family frame clip paint given]
    rfl

theorem position_mem (dressed : face.Dressed families) {element : Element}
    (kind : face.kind = .element element) : "position" ∈ element.style := by
  obtain ⟨declared, frame, clip, paint, typography, -, style, -⟩ := dressed element kind
  have placed := Style.position_mem_derived frame clip paint typography
  rw [Std.ExtTreeMap.mem_iff_isSome_getElem?] at placed ⊢
  rw [style, Properties.getElem?_extend, Option.isSome_or, placed]
  rfl

end Face.Dressed

namespace View.Introspector

/-- The family in which a view sets its text. -/
def family? (source : Introspector) (view : ViewHandle) : Option String :=
  match source.text view with
  | .ok content => (content.getD {}).typography.family
  | .error _ => none

/-- Every family that is met on the way down from a view is one of these. -/
def SetsIn (source : Introspector) (families : String → Prop) (root : ViewHandle) : Prop :=
  ∀ view, source.Reaches root view → ∀ family, source.family? view = some family → families family

theorem SetsIn.below {source : Introspector} {families : String → Prop} {view child : ViewHandle}
    (all : source.SetsIn families view) (member : child ∈ source.children view) :
    source.SetsIn families child := by
  intro other reached family shown
  obtain ⟨way, arrives⟩ := reached
  obtain ⟨place, there⟩ := List.getElem?_of_mem member
  apply all other _ family shown
  exact ⟨place :: way, (follow_child there way).trans arrives⟩

end View.Introspector

namespace Capture

namespace Surveyor

variable {surveyor : Surveyor}

theorem legible_declaredStyle (entries : List (String × String)) :
    (declaredStyle entries).Legible := by
  have folded : ∀ (listed : List (String × String)) (style : Style), style.Legible →
      (listed.foldl (fun style entry => style.extend (Style.parse entry.2)) style).Legible := by
    intro listed
    induction listed with
    | nil => exact fun style legible => legible
    | cons entry listed induction =>
        intro style legible
        exact induction _ (legible.extend (Style.legible_parse entry.2))
  exact folded _ ∅ Style.legible_empty

theorem legible_portrait {view : ViewHandle} {kind : View.Kind} {portrait : Portrait}
    (answered : surveyor.portrait view kind = .ok portrait) : portrait.style.Legible := by
  have declared := legible_declaredStyle (surveyor.source.attributes view)
  rcases portrait_cases answered with ⟨-, rfl⟩ | ⟨name, -, rfl⟩ | ⟨content, -, -, rfl⟩ |
    ⟨content, -, -, rfl⟩ | ⟨image, -, -, rfl⟩
  · exact declared
  · exact Style.legible_empty
  · exact declared
  · exact declared
  · exact declared

theorem drawn_visit (levels depth : Nat) (place : Placement) (inherited : List Masking)
    (view : ViewHandle) (tally : Tally) :
    Drawn ((surveyor.visit levels depth place inherited view tally).1.map Sighting.face) := by
  apply visit_induction
    (motive := fun _ _ _ _ _ tree => Drawn (tree.map Sighting.face))
  case terminal =>
    intro levels depth place inherited view limit tally
    apply Drawn.element rfl
    · simp [truncationMark]
    · intro child member
      cases member
  case placeholder =>
    intro levels depth place inherited view frame paint reports tally fails
    apply Drawn.element rfl Std.ExtTreeMap.not_mem_empty
    intro child member
    cases member
  case element =>
    intro levels depth place inherited view kind portrait seen children told answered first below
      face reports
    rw [Tree.map_node]
    apply Drawn.element rfl (portrait_attributes answered).1
    intro child member
    obtain ⟨tree, inside, rfl⟩ := List.mem_map.mp member
    rcases List.mem_append.mp inside with text | child
    · obtain ⟨content, rfl⟩ := mem_textNodes text
      exact Drawn.text rfl
    · obtain ⟨view, -, drawn⟩ := exists_of_forall₂ below child
      exact drawn

/-- Every view leaves an element. -/
theorem element_visit (levels depth : Nat) (place : Placement) (inherited : List Masking)
    (view : ViewHandle) (tally : Tally) :
    ∃ element, (surveyor.visit levels depth place inherited view tally).1.data.face.kind =
      .element element := by
  apply visit_induction (motive := fun _ _ _ _ _ tree =>
    ∃ element, tree.data.face.kind = .element element)
  case terminal =>
    intro levels depth place inherited view limit tally
    exact ⟨_, rfl⟩
  case placeholder =>
    intro levels depth place inherited view frame paint reports tally fails
    exact ⟨_, rfl⟩
  case element =>
    intro levels depth place inherited view kind portrait seen children told answered first below
      face reports
    exact ⟨_, rfl⟩

theorem height_visit (levels depth : Nat) (place : Placement) (inherited : List Masking)
    (view : ViewHandle) (tally : Tally) :
    (surveyor.visit levels depth place inherited view tally).1.height ≤ levels := by
  apply visit_induction (motive := fun levels _ _ _ _ tree => tree.height ≤ levels)
  case terminal =>
    intro levels depth place inherited view limit tally
    exact Nat.zero_le levels
  case placeholder =>
    intro levels depth place inherited view frame paint reports tally fails
    exact Nat.zero_le (levels + 1)
  case element =>
    intro levels depth place inherited view kind portrait seen children told answered first below
      face reports
    apply Tree.height_le_iff.mpr
    intro child member
    rcases List.mem_append.mp member with text | child
    · obtain ⟨content, rfl⟩ := mem_textNodes text
      exact Nat.succ_pos levels
    · obtain ⟨view, -, bounded⟩ := exists_of_forall₂ below child
      omega

theorem dressed_plainFace (families : String → Prop) (place : Placement) (frame : Rect)
    (paint : Paint) (masked : Bool) (attributes : Attributes) :
    (plainFace place frame paint masked attributes).Dressed families := by
  intro element kind
  cases kind
  exact ⟨∅, frame, place.clip, paint, none, Style.legible_empty, (Style.empty_extend _).symm, nofun⟩

theorem dressed_elementFace {families : String → Prop} {view : ViewHandle} {kind : View.Kind}
    {portrait : Portrait} (answered : surveyor.portrait view kind = .ok portrait)
    (set : ∀ family, surveyor.source.family? view = some family → families family)
    (place : Placement) (inherited : List Masking) :
    (surveyor.elementFace place inherited view kind portrait).Dressed families := by
  intro element same
  cases same
  refine ⟨_, _, _, _, _, legible_portrait answered, rfl, ?_⟩
  intro family given
  apply set family
  rcases portrait_cases answered with ⟨-, rfl⟩ | ⟨name, -, rfl⟩ | ⟨content, -, told, rfl⟩ |
    ⟨content, -, told, rfl⟩ | ⟨image, -, -, rfl⟩
  · contradiction
  · contradiction
  · rw [View.Introspector.family?, told]
    exact given
  · rw [View.Introspector.family?, told]
    exact given
  · contradiction

theorem dressed_visit {families : String → Prop} (levels depth : Nat) (place : Placement)
    (inherited : List Masking) (view : ViewHandle) (tally : Tally)
    (set : surveyor.source.SetsIn families view) :
    ∀ sighting ∈ (surveyor.visit levels depth place inherited view tally).1.preorder,
      sighting.face.Dressed families := by
  revert set
  apply visit_induction (motive := fun _ _ _ _ view tree =>
    surveyor.source.SetsIn families view → ∀ sighting ∈ tree.preorder,
      sighting.face.Dressed families)
  case terminal =>
    intro levels depth place inherited view limit tally set sighting member
    rw [terminal, Tree.preorder_node] at member
    rw [List.mem_singleton.mp member]
    exact dressed_plainFace families _ _ _ _ _
  case placeholder =>
    intro levels depth place inherited view frame paint reports tally fails set sighting member
    rw [placeholder, Tree.preorder_node] at member
    rw [List.mem_singleton.mp member]
    exact dressed_plainFace families _ _ _ _ _
  case element =>
    intro levels depth place inherited view kind portrait seen children told answered first below
      face reports set sighting member
    rw [Tree.preorder_node] at member
    rcases List.mem_cons.mp member with rfl | member
    · exact dressed_elementFace answered (set view ⟨[], rfl⟩) place inherited
    · obtain ⟨tree, treeInside, inside⟩ := List.mem_flatMap.mp member
      rcases List.mem_append.mp treeInside with text | child
      · obtain ⟨content, rfl⟩ := mem_textNodes text
        rw [Tree.preorder_node] at inside
        rw [List.mem_singleton.mp inside]
        intro element kind
        contradiction
      · obtain ⟨other, seenThere, dressed⟩ := exists_of_forall₂ below child
        exact dressed (set.below (first.subset seenThere)) sighting inside

end Surveyor

/-- A document as it is captured, apart from its styles. -/
structure Drawing (levels : Nat) (tree : Tree Node) : Prop where
  top : tree.data.kind = .document
  below : ∀ child ∈ tree.children, Drawn (child.map Node.toFace) ∧
    ∃ element, child.data.kind = .element element
  height : tree.height ≤ levels

theorem Drawing.mono {levels more : Nat} {tree : Tree Node} (drawing : Drawing levels tree)
    (fewer : levels ≤ more) : Drawing more tree :=
  { drawing with height := Nat.le_trans drawing.height fewer }

theorem Drawing.sketch {levels : Nat} {tree : Tree Node} (drawing : Drawing levels tree) :
    Sketch tree :=
  ⟨drawing.top, fun child member => (drawing.below child member).1⟩

variable {settings : Settings} {source : View.Introspector} {registry : Identity.Registry}
variable {root : ViewHandle} {tick : UInt64}

theorem map_toFace_capture (settings : Settings) (source : View.Introspector)
    (registry : Identity.Registry) (root : ViewHandle) (tick : UInt64) :
    (capture settings source registry root tick).tree.map Node.toFace =
      ((settings.surveyor source).survey root).1.map Sighting.face := by
  rw [← map_node_census, ← map_sighting_census registry, Tree.map_map, Tree.map_map]
  rfl

theorem drawing_capture : Drawing (settings.limits.maxDepth.toNat - 1 + 1)
    (capture settings source registry root tick).tree := by
  have faces := map_toFace_capture settings source registry root tick
  generalize (capture settings source registry root tick).tree = tree at faces
  obtain ⟨top, children⟩ := tree
  rw [Surveyor.survey, Tree.map_node, Tree.map_node] at faces
  obtain ⟨topFace, childFaces⟩ := Tree.node.inj faces
  constructor
  · exact congrArg Face.kind topFace
  · intro child member
    have seen : child.map Node.toFace ∈ children.map (Tree.map Node.toFace) :=
      List.mem_map_of_mem member
    rw [childFaces] at seen
    have only := List.mem_singleton.mp seen
    constructor
    · rw [only]
      exact Surveyor.drawn_visit ..
    · have same := congrArg (fun tree => tree.data.kind) only
      simp only [Tree.data_map] at same
      rw [same]
      exact Surveyor.element_visit ..
  · rw [← Tree.height_map Node.toFace, Tree.map_node, faces]
    apply Tree.height_le_iff.mpr
    intro child member
    rw [List.mem_singleton.mp member, Tree.height_map]
    exact Nat.lt_succ_of_le (Surveyor.height_visit ..)

theorem dressed_capture {families : String → Prop} (set : source.SetsIn families root) :
    ∀ node ∈ (capture settings source registry root tick).tree.preorder,
      node.toFace.Dressed families := by
  have faces := congrArg Tree.preorder (map_toFace_capture settings source registry root tick)
  rw [Tree.preorder_map, Tree.preorder_map] at faces
  intro node member
  have seen : node.toFace ∈ ((settings.surveyor source).survey root).1.preorder.map
      Sighting.face := by
    rw [← faces]
    exact List.mem_map_of_mem member
  obtain ⟨sighting, inside, same⟩ := List.mem_map.mp seen
  rw [← same]
  rw [Surveyor.survey, Tree.preorder_node] at inside
  rcases List.mem_cons.mp inside with rfl | below
  · intro element kind
    contradiction
  · obtain ⟨child, only, inside⟩ := List.mem_flatMap.mp below
    rw [List.mem_singleton.mp only] at inside
    exact Surveyor.dressed_visit _ _ _ _ _ _ set sighting inside

theorem legible_capture (set : source.SetsIn Style.LegibleValue root) :
    ∀ node ∈ (capture settings source registry root tick).tree.preorder, node.toFace.Legible := by
  intro node member
  exact (dressed_capture set node member).legible fun family legible => legible

end Capture

end SessionReplay
