import SessionReplay.Proofs.Capture.Drawing
import SessionReplay.Proofs.Tree.Edit
import SessionReplay.Proofs.Wire.Concealing

/-!
A player of a recording. It holds the document that the events describe, with the style of an
element as properties, and refuses an event about a node that it does not hold. What a player
reads in a snapshot is the document as it is shown: masked content hidden and every style as its
text reads back.
-/

namespace SessionReplay

/-- What is read in the text of a style. -/
def Style.reread (style : Style) : Style := parse style.cssText

namespace Wire

/-- A node as a player holds it. -/
inductive Item where
  | document (id : Id)
  | element (id : Id) (tag : Tag) (attributes : Attributes) (style : Style)
  | text (id : Id) (content : String) (isStyle : Bool)

namespace Item

def id : Item → Id
  | document id => id
  | element id _ _ _ => id
  | text id _ _ => id

def setText (value : String) : Item → Option Item
  | text id _ isStyle => some (text id value isStyle)
  | _ => none

end Item

abbrev Page := Tree Item

/-- The style that the attributes give as one text. -/
def writtenStyle (attributes : Attributes) : Style :=
  (attributes["style"]?.map Style.parse).getD ∅

mutual

def read : Node → Page
  | .document id children => .node (.document id) (readAll children)
  | .element id tag attributes children =>
      .node (.element id tag (attributes.erase "style") (writtenStyle attributes))
        (readAll children)
  | .text id content isStyle => .node (.text id content isStyle) []

def readAll : List Node → List Page
  | [] => []
  | node :: nodes => read node :: readAll nodes

end

theorem readAll_eq_map (nodes : List Node) : readAll nodes = nodes.map read := by
  induction nodes with
  | nil => rfl
  | cons node nodes induction => rw [readAll, induction, List.map_cons]

/-- What is set or deleted by name, without the style. -/
def namedValues (values : Std.ExtTreeMap String AttributeValue) : KeyDelta :=
  values.filterMap fun name value =>
    match value with
    | .text value => if name = "style" then none else some value
    | .style _ => none

/-- Properties that are not given stay as they are. -/
def newStyle (style : Style) : Option AttributeValue → Style
  | none => style
  | some (.style delta) => delta.apply style
  | some (.text value) => (value.map Style.parse).getD ∅

def Item.setAttributes (values : Std.ExtTreeMap String AttributeValue) : Item → Option Item
  | element id tag attributes style =>
      some (element id tag ((namedValues values).apply attributes)
        (newStyle style values["style"]?))
  | _ => none

namespace Mutation

variable (mutation : Mutation)

def removing : List (Edit Id Item) :=
  mutation.removes.map fun removal => .remove removal.parent removal.id

def adding : List (Edit Id Item) :=
  mutation.adds.map fun addition => .add addition.parent addition.next (read addition.node)

def rewriting : List (Edit Id Item) :=
  mutation.texts.map fun change => .revise change.id (Item.setText change.value)

def resetting : List (Edit Id Item) :=
  mutation.attributes.map fun change => .revise change.id (Item.setAttributes change.attributes)

def edits : List (Edit Id Item) :=
  mutation.removing ++ mutation.adding ++ mutation.rewriting ++ mutation.resetting

end Mutation

def holds (page : Option Page) (id : Id) : Bool :=
  page.any fun page => id ∈ page.keys Item.id

/-- The page after an event. Without a value when the event names a node that is not there. -/
def consume (page : Option Page) (event : Event) : Option (Option Page) :=
  match event.payload with
  | .snapshot document => some (some (read document))
  | .page .. => some page
  | .increment (.mutation changes) => (page.bind (Tree.play Item.id changes.edits)).map some
  | .increment (.pointer _ target _) => if holds page target then some page else none
  | .increment (.touch positions) =>
      if positions.all fun position => holds page position.id then some page else none

/-- Events in the order in which they were sent. -/
def consumeAll (page : Option Page) (events : List Event) : Option (Option Page) :=
  events.foldlM consume page

namespace Encoder

variable (encoder : Encoder)

/-- A node as it is shown, with a style that stands for its own. -/
def item (restyle : Style → Style) (node : SessionReplay.Node) : Item :=
  match node.kind with
  | .document => .document (.node node.id)
  | .element element =>
      .element (.node node.id) element.tag
        (encoder.visibleAttributes node.masked element.attributes) (restyle element.style)
  | .text content isStyle =>
      .text (.node node.id) (encoder.visible node.masked content) isStyle

theorem id_item (restyle : Style → Style) (node : SessionReplay.Node) :
    (encoder.item restyle node).id = .node node.id := by
  unfold item
  split <;> rfl

theorem style_not_mem_visibleAttributes (masked : Bool) {attributes : Attributes}
    (plain : "style" ∉ attributes) : "style" ∉ encoder.visibleAttributes masked attributes := by
  rw [Std.ExtTreeMap.mem_iff_isSome_getElem?, getElem?_visibleAttributes,
    Std.ExtTreeMap.getElem?_eq_none plain]
  exact Bool.false_ne_true

theorem writtenStyle_elementAttributes (masked : Bool) {element : Element}
    (plain : "style" ∉ element.attributes) :
    (encoder.elementAttributes masked element).erase "style" =
        encoder.visibleAttributes masked element.attributes ∧
      writtenStyle (encoder.elementAttributes masked element) = element.style.reread := by
  have absent := encoder.style_not_mem_visibleAttributes masked plain
  unfold elementAttributes
  dsimp only
  split
  case isTrue empty =>
    constructor
    · apply Std.ExtTreeMap.ext_getElem?
      intro name
      rw [Std.ExtTreeMap.getElem?_erase]
      split
      case isTrue same =>
        rw [← Std.LawfulEqOrd.eq_of_compare same, Std.ExtTreeMap.getElem?_eq_none absent]
      case isFalse => rfl
    · rw [writtenStyle, Std.ExtTreeMap.getElem?_eq_none absent,
        Std.ExtTreeMap.isEmpty_iff.mp empty, Style.reread, Style.parse_cssText Style.legible_empty]
      rfl
  case isFalse =>
    constructor
    · apply Std.ExtTreeMap.ext_getElem?
      intro name
      rw [Std.ExtTreeMap.getElem?_erase, Std.ExtTreeMap.getElem?_insert]
      split
      case isTrue same =>
        rw [← Std.LawfulEqOrd.eq_of_compare same, Std.ExtTreeMap.getElem?_eq_none absent]
      case isFalse => rfl
    · rw [writtenStyle, Std.ExtTreeMap.getElem?_insert_self]
      rfl

/-- Where nothing is too deep, a player reads what is shown. -/
theorem read_encodeNode (depth : Nat) {tree : Tree SessionReplay.Node}
    (drawn : Drawn (tree.map SessionReplay.Node.toFace))
    (room : depth + tree.height ≤ encoder.maxDepth.toNat) :
    read (encoder.encodeNode depth tree) = tree.map (encoder.item Style.reread) := by
  induction tree using Tree.children_induction generalizing depth with
  | step node children induction =>
      rw [Tree.map_node] at drawn
      rw [Tree.map_node, encodeNode]
      generalize faces : children.map (Tree.map SessionReplay.Node.toFace) = below at drawn
      cases drawn with
      | @text face content isStyle kind =>
          have none : children = [] := List.map_eq_nil_iff.mp faces
          have shape : node.kind = .text content isStyle := kind
          simp only [shape, none, read, item, List.map_nil]
      | @element face element below kind plain drawn =>
          have shape : node.kind = .element element := kind
          -- A node that has children is above the greatest depth, so none of them is cut off.
          have uncut : (decide (encoder.maxDepth.toNat ≤ depth) && !children.isEmpty) = false := by
            cases children with
            | nil => exact Bool.and_false _
            | cons child children =>
                have higher : child.height < (Tree.node node (child :: children)).height :=
                  Tree.height_child List.mem_cons_self
                rw [decide_eq_false (by omega)]
                rfl
          have rest : (if decide (encoder.maxDepth.toNat ≤ depth) then []
              else encoder.encodeNodes (depth + 1) children) =
              children.map (encoder.encodeNode (depth + 1)) := by
            cases children with
            | nil => split <;> rfl
            | cons child children =>
                have higher : child.height < (Tree.node node (child :: children)).height :=
                  Tree.height_child List.mem_cons_self
                rw [decide_eq_false (by omega), if_neg Bool.false_ne_true, encodeNodes_eq_map]
          obtain ⟨attributes, style⟩ := encoder.writtenStyle_elementAttributes
            node.masked plain
          have inside : children.map (read ∘ encoder.encodeNode (depth + 1)) =
              children.map (Tree.map (encoder.item Style.reread)) := by
            apply List.map_congr_left
            intro child member
            apply induction child member
            · apply drawn
              rw [← faces]
              exact List.mem_map_of_mem member
            · have lower : child.height < (Tree.node node children).height :=
                Tree.height_child member
              omega
          simp only [shape, uncut, rest, mark, Bool.false_eq_true, if_false, read, readAll_eq_map,
            List.map_map, item, attributes, style, inside]

theorem read_encodeTree {levels : Nat} {tree : Tree SessionReplay.Node}
    (drawing : Capture.Drawing levels tree) (room : levels ≤ encoder.maxDepth.toNat)
    (some : 1 ≤ encoder.maxDepth) :
    read (encoder.encodeTree tree) = tree.map (encoder.item Style.reread) := by
  obtain ⟨node, children⟩ := tree
  have top : node.kind = .document := drawing.top
  have height := drawing.height
  have deep : encoder.maxDepth ≠ 0 := by
    rintro zero
    rw [zero] at some
    contradiction
  have inside : children.map (read ∘ encoder.encodeTopChild) =
      children.map (Tree.map (encoder.item Style.reread)) := by
    apply List.map_congr_left
    intro child member
    obtain ⟨drawn, element, kind⟩ := drawing.below child member
    have lower : child.height < (Tree.node node children).height := Tree.height_child member
    rw [← encoder.read_encodeNode 1 drawn (by omega), Function.comp_apply,
      encodeTopChild, kind]
  simp only [encodeTree, Tree.data, Tree.children, top, if_neg deep, read, readAll_eq_map,
    List.map_map, inside, Tree.map_node, item]

end Encoder

end Wire

end SessionReplay
