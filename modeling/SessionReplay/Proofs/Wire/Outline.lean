import SessionReplay.Proofs.Tree.Cutting
import SessionReplay.Proofs.Tree.Edit
import SessionReplay.Proofs.Wire.Concealing
import SessionReplay.Proofs.Wire.Spelling

/-!
The outline of what is sent of a document: by which numbers the nodes go, which of them are texts
and which are marked. It is that of the document down to the deepest level, with an element around
each text that is directly below a document on top.
-/

namespace SessionReplay

def Kind.isText : Kind → Bool
  | text .. => true
  | _ => false

namespace Document

/-- Nothing is below a text. -/
def FlatTexts (tree : Tree Node) : Prop :=
  ∀ part, Tree.Inside part tree → part.data.kind.isText → part.children = []

/-- The texts directly below a document on top. -/
def topTexts (tree : Tree Node) : List (Tree Node) :=
  match tree.data.kind with
  | .document => tree.children.filter (·.data.kind.isText)
  | _ => []

theorem topTexts_document {tree : Tree Node} (top : tree.data.kind = .document) :
    topTexts tree = tree.children.filter (·.data.kind.isText) := by
  rw [topTexts, top]

theorem topTexts_other {tree : Tree Node} (other : tree.data.kind ≠ .document) :
    topTexts tree = [] := by
  unfold topTexts
  split
  case h_1 document => exact absurd document other
  case h_2 => rfl

theorem FlatTexts.child {data : Node} {children : List (Tree Node)} {child : Tree Node}
    (flat : FlatTexts (.node data children)) (member : child ∈ children) : FlatTexts child :=
  fun part inside => flat part (.inner member inside)

theorem ids_topTexts_nodup {tree : Tree Node} (distinct : (ids tree).Nodup) :
    ((topTexts tree).map (·.data.id)).Nodup := by
  have keys : (tree.keys Node.id).Nodup := distinct
  have roots := Tree.child_keys_nodup keys
  by_cases top : tree.data.kind = .document
  · rw [topTexts_document top]
    exact (List.filter_sublist.map _).nodup roots
  · rw [topTexts_other top]
    exact List.nodup_nil

end Document

namespace Wire

open SessionReplay.Document (FlatTexts topTexts)

/-- What is told of a node in an outline. -/
structure Sign where
  id : Id
  isText : Bool
  marked : Bool
deriving DecidableEq, Repr

def Sign.isWrapper (sign : Sign) : Bool :=
  match sign.id with
  | .node _ => false
  | .wrapper _ => true

/-- The ids are distinct when those of the wrappers are and those of the other nodes. -/
theorem Sign.ids_nodup {signs : List Sign}
    (wrappers : ((signs.filter isWrapper).map id).Nodup)
    (others : ((signs.filter (!isWrapper ·)).map id).Nodup) : (signs.map id).Nodup := by
  rw [← ((List.filter_append_perm isWrapper signs).map id).nodup_iff, List.map_append]
  refine List.nodup_append.mpr ⟨wrappers, others, ?_⟩
  rintro name wrapper other node rfl
  obtain ⟨first, one, rfl⟩ := List.mem_map.mp wrapper
  obtain ⟨second, two, same⟩ := List.mem_map.mp node
  have here := (List.mem_filter.mp one).2
  have there := (List.mem_filter.mp two).2
  rw [isWrapper, same] at there
  rw [isWrapper] at here
  simp [here] at there

mutual

def Node.outline : Node → Tree Sign
  | .document id children => .node ⟨id, false, false⟩ (Node.outlineAll children)
  | .element id _ attributes children =>
      .node ⟨id, false, attributes.contains truncationMark⟩ (Node.outlineAll children)
  | .text id _ _ => .node ⟨id, true, false⟩ []

def Node.outlineAll : List Node → List (Tree Sign)
  | [] => []
  | node :: nodes => node.outline :: Node.outlineAll nodes

end

theorem Node.outlineAll_eq_map (nodes : List Node) :
    Node.outlineAll nodes = nodes.map Node.outline := by
  induction nodes with
  | nil => rfl
  | cons node nodes induction => rw [outlineAll, induction, List.map_cons]

/-- The outline of a text. -/
def bareText (id : NodeId) : Tree Sign := .node ⟨.node id, true, false⟩ []

/-- The outline of a text with an element around it. -/
def wrappedText (id : NodeId) : Tree Sign := .node ⟨.wrapper id, false, false⟩ [bareText id]

/-- A node of a document and, on the last level that is sent, the children cut off below it. -/
abbrev Spot := SessionReplay.Node × Option (List (Tree SessionReplay.Node))

/-- What is told of a node. It is marked when it was, or when children are cut off. -/
def sign (spot : Spot) : Sign where
  id := .node spot.1.id
  isText := spot.1.kind.isText
  marked := spot.1.kind.isTruncated || spot.2.any (!·.isEmpty)

theorem map_sign_not_wrapper {tree : Tree Spot} {item : Sign}
    (member : item ∈ (tree.map sign).preorder) : item.isWrapper = false := by
  rw [Tree.preorder_map] at member
  obtain ⟨spot, -, rfl⟩ := List.mem_map.mp member
  rfl

theorem splice_map_sign (tree : Tree Spot) :
    (tree.map sign).splice Sign.isWrapper = [tree.map sign] :=
  Tree.splice_eq_self fun _ member => map_sign_not_wrapper member

theorem wrappers_map_sign (tree : Tree Spot) :
    (tree.map sign).preorder.filter Sign.isWrapper = [] := by
  rw [List.filter_eq_nil_iff]
  intro item member
  rw [map_sign_not_wrapper member]
  exact Bool.false_ne_true

theorem sign_text {node : SessionReplay.Node} (text : node.kind.isText) (levels : Nat) :
    ((Tree.node node []).cut levels).map sign = bareText node.id := by
  have unmarked : node.kind.isTruncated = false := by
    cases kind : node.kind <;> simp_all [Kind.isText, Kind.isTruncated]
  cases levels <;> simp [Tree.cut, sign, text, unmarked, bareText]

namespace Encoder

variable (encoder : Encoder)

theorem contains_mark_elementAttributes (masked : Bool) (element : Element) :
    (encoder.elementAttributes masked element).contains truncationMark =
      element.attributes.contains truncationMark := by
  rw [← encoder.contains_mark_visibleAttributes masked element.attributes, elementAttributes]
  split
  case isTrue => rfl
  case isFalse =>
    rw [Std.ExtTreeMap.contains_insert]
    simp [truncationMark]

theorem contains_mark_mark (cut : Bool) (attributes : Attributes) :
    (mark cut attributes).contains truncationMark =
      (attributes.contains truncationMark || cut) := by
  cases cut with
  | false => exact (Bool.or_false _).symm
  | true => simp [mark]

theorem outline_text {node : SessionReplay.Node} (text : node.kind.isText) (depth : Nat)
    (children : List (Tree SessionReplay.Node)) :
    (encoder.encodeNode depth (.node node children)).outline = bareText node.id := by
  cases kind : node.kind with
  | text content isStyle => simp only [encodeNode, kind, Node.outline, bareText]
  | document => simp [kind, Kind.isText] at text
  | element element => simp [kind, Kind.isText] at text

/-- What has children on the deepest level, or below, is marked. -/
theorem outline_other {node : SessionReplay.Node} (other : node.kind.isText = false) (depth : Nat)
    (children : List (Tree SessionReplay.Node)) :
    (encoder.encodeNode depth (.node node children)).outline =
      .node
        { id := .node node.id
          isText := false
          marked := node.kind.isTruncated ||
            (decide (encoder.maxDepth.toNat ≤ depth) && !children.isEmpty) }
        (if encoder.maxDepth.toNat ≤ depth then []
          else children.map fun child => (encoder.encodeNode (depth + 1) child).outline) := by
  have below : Node.outlineAll (if encoder.maxDepth.toNat ≤ depth then []
        else encoder.encodeNodes (depth + 1) children) =
      if encoder.maxDepth.toNat ≤ depth then []
      else children.map fun child => (encoder.encodeNode (depth + 1) child).outline := by
    split
    case isTrue => rfl
    case isFalse =>
      rw [Node.outlineAll_eq_map, encodeNodes_eq_map, List.map_map]
      rfl
  cases kind : node.kind with
  | text content isStyle => simp [kind, Kind.isText] at other
  | document =>
      simp only [encodeNode, kind, Node.outline, decide_eq_true_eq, below, contains_mark_mark,
        Kind.isTruncated, Std.ExtTreeMap.contains_empty]
  | element element =>
      simp only [encodeNode, kind, Node.outline, decide_eq_true_eq, below, contains_mark_mark,
        Kind.isTruncated, contains_mark_elementAttributes]

/-- What is sent of a tree is the tree down to the deepest level. -/
theorem outline_encodeNode {tree : Tree SessionReplay.Node} (flat : FlatTexts tree) (depth : Nat) :
    (encoder.encodeNode depth tree).outline =
      (tree.cut (encoder.maxDepth.toNat - depth)).map sign := by
  induction tree using Tree.children_induction generalizing depth with
  | step node children induction =>
      cases text : node.kind.isText with
      | true =>
          have none : children = [] := flat _ (.itself _) text
          rw [none, outline_text encoder text, sign_text text]
      | false =>
          rw [outline_other encoder text]
          by_cases deep : encoder.maxDepth.toNat ≤ depth
          · rw [if_pos deep, Nat.sub_eq_zero_of_le deep, Tree.cut, Tree.map_node]
            simp [sign, text, deep]
          · have more : encoder.maxDepth.toNat - depth =
                encoder.maxDepth.toNat - (depth + 1) + 1 := by omega
            have below : (children.map fun child =>
                  (encoder.encodeNode (depth + 1) child).outline) =
                (children.map (Tree.cut (encoder.maxDepth.toNat - (depth + 1)))).map
                  (Tree.map sign) := by
              rw [List.map_map]
              exact List.map_congr_left fun child member =>
                induction child member (flat.child member) (depth + 1)
            rw [if_neg deep, below, more, Tree.cut, Tree.map_node]
            simp [sign, text, deep]

/-- The outline of a child of the document. -/
def topOutline (child : Tree SessionReplay.Node) : Tree Sign :=
  if child.data.kind.isText then wrappedText child.data.id
  else (child.cut (encoder.maxDepth.toNat - 1)).map sign

theorem encodeTopChild_text {child : Tree SessionReplay.Node} (text : child.data.kind.isText) :
    encoder.encodeTopChild child =
      .element (.wrapper child.data.id) .div ∅ [encoder.encodeNode 2 child] := by
  unfold encodeTopChild
  cases kind : child.data.kind with
  | text content isStyle => rfl
  | document => simp [kind, Kind.isText] at text
  | element element => simp [kind, Kind.isText] at text

theorem encodeTopChild_other {child : Tree SessionReplay.Node}
    (other : child.data.kind.isText = false) :
    encoder.encodeTopChild child = encoder.encodeNode 1 child := by
  unfold encodeTopChild
  cases kind : child.data.kind with
  | text content isStyle => simp [kind, Kind.isText] at other
  | document => rfl
  | element element => rfl

theorem outline_encodeTopChild {child : Tree SessionReplay.Node} (flat : FlatTexts child) :
    (encoder.encodeTopChild child).outline = encoder.topOutline child := by
  obtain ⟨node, children⟩ := child
  unfold topOutline
  split
  case isTrue top =>
    have text : node.kind.isText := top
    rw [encodeTopChild_text encoder top, Node.outline, Node.outlineAll_eq_map,
      List.map_singleton, outline_text encoder text, Std.ExtTreeMap.contains_empty]
    rfl
  case isFalse other =>
    rw [encodeTopChild_other encoder (eq_false_of_ne_true other)]
    exact encoder.outline_encodeNode flat 1

theorem splice_topOutline {child : Tree SessionReplay.Node} (flat : FlatTexts child) :
    (encoder.topOutline child).splice Sign.isWrapper =
      [(child.cut (encoder.maxDepth.toNat - 1)).map sign] := by
  obtain ⟨node, children⟩ := child
  unfold topOutline
  split
  case isTrue top =>
    have text : node.kind.isText := top
    have none : children = [] := flat _ (.itself _) text
    rw [none, sign_text text]
    rfl
  case isFalse => exact splice_map_sign _

theorem wrapper_inside_topOutline {child : Tree SessionReplay.Node} {part : Tree Sign}
    (inside : Tree.Inside part (encoder.topOutline child)) (wrapper : part.data.isWrapper) :
    child.data.kind.isText ∧ part = wrappedText child.data.id := by
  unfold topOutline at inside
  split at inside
  case isTrue text =>
    refine ⟨text, ?_⟩
    cases inside with
    | itself => rfl
    | inner member below =>
        rw [List.mem_singleton.mp member] at below
        cases below with
        | itself => contradiction
        | inner none => contradiction
  case isFalse =>
    rw [map_sign_not_wrapper inside.data_mem] at wrapper
    contradiction

theorem wrappers_topOutlines (children : List (Tree SessionReplay.Node)) :
    (((children.map encoder.topOutline).flatMap Tree.preorder).filter Sign.isWrapper).map Sign.id =
      ((children.filter (·.data.kind.isText)).map (·.data.id)).map .wrapper := by
  induction children with
  | nil => rfl
  | cons child children induction =>
      rw [List.map_cons, List.flatMap_cons, List.filter_append, List.map_append, induction,
        topOutline, List.filter_cons]
      split
      case isTrue => rfl
      case isFalse => rw [wrappers_map_sign, List.map_nil, List.nil_append]

theorem encodeTree_other {tree : Tree SessionReplay.Node} (other : tree.data.kind ≠ .document) :
    encoder.encodeTree tree = encoder.encodeNode 0 tree := by
  unfold encodeTree
  split
  case h_1 document => exact absurd document other
  case h_2 => rfl

section Sent

variable {tree : Tree SessionReplay.Node} (flat : FlatTexts tree) (some : 1 ≤ encoder.maxDepth)

include flat

theorem outline_encodeTree_other (other : tree.data.kind ≠ .document) :
    (encoder.encodeTree tree).outline = (tree.cut encoder.maxDepth.toNat).map sign := by
  rw [encodeTree_other encoder other, outline_encodeNode encoder flat, Nat.sub_zero]

include some

theorem outline_encodeTree_document (top : tree.data.kind = .document) :
    (encoder.encodeTree tree).outline =
      .node ⟨.node tree.data.id, false, false⟩ (tree.children.map encoder.topOutline) := by
  obtain ⟨node, children⟩ := tree
  have deep : encoder.maxDepth ≠ 0 := by
    intro none
    rw [none] at some
    exact absurd some (by decide)
  have document : node.kind = .document := top
  have below : (children.map encoder.encodeTopChild).map Node.outline =
      children.map encoder.topOutline := by
    rw [List.map_map]
    exact List.map_congr_left fun child member =>
      encoder.outline_encodeTopChild (flat.child member)
  simp only [encodeTree, Tree.data, document, if_neg deep, Node.outline, Node.outlineAll_eq_map,
    Tree.children, below]

/-- Without the elements around texts there is the tree down to the deepest level. -/
theorem splice_outline_encodeTree :
    (encoder.encodeTree tree).outline.splice Sign.isWrapper =
      [(tree.cut encoder.maxDepth.toNat).map sign] := by
  by_cases top : tree.data.kind = .document
  · obtain ⟨node, children⟩ := tree
    have document : node.kind = .document := top
    have level : encoder.maxDepth.toNat = encoder.maxDepth.toNat - 1 + 1 := by
      have least : 1 ≤ encoder.maxDepth.toNat := UInt32.le_iff_toNat_le.mp some
      omega
    have below : (children.map encoder.topOutline).flatMap (Tree.splice Sign.isWrapper) =
        (children.map (Tree.cut (encoder.maxDepth.toNat - 1))).map (Tree.map sign) := by
      rw [List.flatMap_map, List.map_map, List.map_eq_flatMap]
      exact List.flatMap_congr fun child member => encoder.splice_topOutline (flat.child member)
    rw [outline_encodeTree_document encoder flat some top, Tree.splice_kept rfl, Tree.children,
      below, level, Tree.cut, Tree.map_node, ← level]
    simp [sign, Tree.data, document, Kind.isText, Kind.isTruncated]
  · rw [outline_encodeTree_other encoder flat top]
    exact splice_map_sign _

/-- There is no element around anything but a text directly below a document on top. -/
theorem wrapper_inside_outline {part : Tree Sign}
    (inside : Tree.Inside part (encoder.encodeTree tree).outline)
    (wrapper : part.data.isWrapper) :
    ∃ text ∈ topTexts tree, part = wrappedText text.data.id := by
  by_cases top : tree.data.kind = .document
  · rw [outline_encodeTree_document encoder flat some top] at inside
    cases inside with
    | itself => contradiction
    | inner member below =>
        obtain ⟨child, listed, rfl⟩ := List.mem_map.mp member
        obtain ⟨text, same⟩ := encoder.wrapper_inside_topOutline below wrapper
        refine ⟨child, ?_, same⟩
        rw [Document.topTexts_document top]
        exact List.mem_filter.mpr ⟨listed, text⟩
  · rw [outline_encodeTree_other encoder flat top] at inside
    rw [map_sign_not_wrapper inside.data_mem] at wrapper
    contradiction

theorem wrapped_mem_outline {text : Tree SessionReplay.Node} (member : text ∈ topTexts tree) :
    wrappedText text.data.id ∈ (encoder.encodeTree tree).outline.children := by
  by_cases top : tree.data.kind = .document
  · rw [Document.topTexts_document top] at member
    obtain ⟨listed, isText⟩ := List.mem_filter.mp member
    rw [outline_encodeTree_document encoder flat some top]
    refine List.mem_map.mpr ⟨text, listed, ?_⟩
    rw [topOutline, if_pos isText]
  · rw [Document.topTexts_other top] at member
    contradiction

/-- There is one element around each of these texts, in their order. -/
theorem wrappers_outline :
    ((encoder.encodeTree tree).outline.preorder.filter Sign.isWrapper).map Sign.id =
      ((topTexts tree).map (·.data.id)).map .wrapper := by
  by_cases top : tree.data.kind = .document
  · rw [outline_encodeTree_document encoder flat some top, Tree.preorder_node,
      Document.topTexts_document top, ← wrappers_topOutlines]
    rfl
  · rw [outline_encodeTree_other encoder flat top, Document.topTexts_other top, wrappers_map_sign]
    rfl

/-- All the other nodes are those of the document down to the deepest level. -/
theorem nodes_outline :
    ((encoder.encodeTree tree).outline.preorder.filter (!Sign.isWrapper ·)).map Sign.id =
      (((tree.cut encoder.maxDepth.toNat).preorder.map Prod.fst).map (·.id)).map .node := by
  rw [← Tree.preorder_splice, encoder.splice_outline_encodeTree flat some,
    List.flatMap_singleton, Tree.preorder_map, List.map_map, List.map_map, List.map_map]
  rfl

/-- Nothing goes by a number that something else goes by. -/
theorem numbers_outline_nodup (distinct : (Document.ids tree).Nodup) :
    ((encoder.encodeTree tree).outline.keys (Id.number ∘ Sign.id)).Nodup := by
  have ids : ((encoder.encodeTree tree).outline.preorder.map Sign.id).Nodup := by
    apply Sign.ids_nodup
    · rw [encoder.wrappers_outline flat some]
      exact (Document.ids_topTexts_nodup distinct).map fun _ _ same => Id.wrapper.inj same
    · have fewer := (Tree.preorder_cut_sublist encoder.maxDepth.toNat tree).map (·.id)
      rw [encoder.nodes_outline flat some]
      exact (fewer.nodup distinct).map fun _ _ same => Id.node.inj same
  rw [Tree.keys, ← List.map_map]
  exact ids.map Id.number_injective

end Sent

/-- What is sent of a document is the document down to the deepest level, and nothing else but an
element around each text directly below a document on top. -/
theorem outline_encodeTree (tree : Tree SessionReplay.Node)
    (distinct : (Document.ids tree).Nodup) (flat : FlatTexts tree) (some : 1 ≤ encoder.maxDepth) :
    let sent := (encoder.encodeTree tree).outline
    sent.splice Sign.isWrapper = [(tree.cut encoder.maxDepth.toNat).map sign] ∧
    (∀ part, Tree.Inside part sent → part.data.isWrapper →
      ∃ text ∈ topTexts tree, part = wrappedText text.data.id) ∧
    (∀ text ∈ topTexts tree, wrappedText text.data.id ∈ sent.children) ∧
    (sent.keys (Id.number ∘ Sign.id)).Nodup :=
  ⟨encoder.splice_outline_encodeTree flat some,
    fun _ => encoder.wrapper_inside_outline flat some,
    fun _ => encoder.wrapped_mem_outline flat some,
    encoder.numbers_outline_nodup flat some distinct⟩

/-- A text beside an element with a text in it. -/
def letter : Tree SessionReplay.Node :=
  .node { id := ⟨1⟩, kind := .document }
    [.node { id := ⟨2⟩, kind := .text "Dear all," false } [],
      .node { id := ⟨3⟩, kind := .element { tag := .div } }
        [.node { id := ⟨4⟩, kind := .text "hello" false } []]]

theorem letter_flatTexts : FlatTexts letter := by
  intro part inside text
  cases inside with
  | itself => contradiction
  | inner member below =>
      rcases List.mem_pair.mp member with rfl | rfl
      · cases below with
        | itself => rfl
        | inner none => contradiction
      · cases below with
        | itself => contradiction
        | inner member below =>
            rw [List.mem_singleton.mp member] at below
            cases below with
            | itself => rfl
            | inner none => contradiction

theorem outline_encodeTree_letter :
    (Document.ids letter).Nodup ∧ FlatTexts letter ∧ (1 : UInt32) ≤ 1 ∧
    (({ maxDepth := 1 } : Encoder).encodeTree letter).outline.splice Sign.isWrapper =
      [.node ⟨.node ⟨1⟩, false, false⟩
        [bareText ⟨2⟩, .node ⟨.node ⟨3⟩, false, true⟩ []]] ∧
    (∀ text ∈ topTexts letter, wrappedText text.data.id ∈
      (({ maxDepth := 1 } : Encoder).encodeTree letter).outline.children) := by
  have distinct : (Document.ids letter).Nodup := by decide
  have sent := outline_encodeTree { maxDepth := 1 } letter distinct letter_flatTexts (by decide)
  exact ⟨distinct, letter_flatTexts, by decide, sent.1, sent.2.2.1⟩

end Encoder

end Wire

end SessionReplay
