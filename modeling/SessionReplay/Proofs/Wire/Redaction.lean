import SessionReplay.Proofs.Capture.Veil
import SessionReplay.Proofs.Document.Transition
import SessionReplay.Proofs.Wire.Concealing

/-!
What is sent of masked content. Two documents that differ by a veil alone are sent as the same
events, and so are the changes between two such documents.
-/

namespace SessionReplay

namespace Veil

variable (veil : Veil)

def record : Record → Record
  | .add parent next subtree => .add parent next (subtree.map veil.node)
  | .remove parent id => .remove parent id
  | .text id content masked => .text id (if masked then veil.replace content else content) masked
  | .attributes id masked attributes style =>
      .attributes id masked
        (if masked then attributes.map fun name value => value.map (veil.value name)
          else attributes)
        style

def changes (changes : Document.Changes) : Document.Changes where
  removes := changes.removes.map veil.record
  adds := changes.adds.map veil.record
  texts := changes.texts.map veil.record
  attributes := changes.attributes.map veil.record

@[simp]
theorem id_node (node : Node) : (veil.node node).id = node.id := rfl

@[simp]
theorem masked_node (node : Node) : (veil.node node).masked = node.masked :=
  veil.masked_face node.toFace

theorem kind_node (node : Node) :
    (veil.node node).kind = if node.masked then veil.kind node.kind else node.kind := by
  simp only [Veil.node, Veil.face]
  split <;> rfl

theorem sameShape_kind (first second : Kind) :
    (veil.kind first).sameShape second = first.sameShape second ∧
      first.sameShape (veil.kind second) = first.sameShape second := by
  cases first <;> cases second <;> exact ⟨rfl, rfl⟩

theorem sameShape_node (first second : Node) :
    (veil.node first).kind.sameShape (veil.node second).kind =
      first.kind.sameShape second.kind := by
  rw [kind_node, kind_node]
  split <;> split <;> simp [veil.sameShape_kind]

theorem changes_append (first second : Document.Changes) :
    veil.changes (first ++ second) = veil.changes first ++ veil.changes second := by
  change Document.Changes.mk _ _ _ _ = Document.Changes.mk _ _ _ _
  exact Document.Changes.mk.injEq .. ▸ ⟨List.map_append, List.map_append, List.map_append,
    List.map_append⟩

end Veil

namespace Document

variable {veil : Veil}

theorem counterpart?_veiled (previous : List (Tree Node)) (child : Tree Node) :
    counterpart? (previous.map (Tree.map veil.node)) (child.map veil.node) =
      counterpart? previous child := by
  unfold counterpart?
  rw [List.zipIdx_map, ← List.map_reverse, List.find?_map]
  have test : ((fun item : Tree Node × Nat =>
      decide (item.1.data.id = (child.map veil.node).data.id)) ∘
        Prod.map (Tree.map veil.node) id) =
      fun item => decide (item.1.data.id = child.data.id) := by
    funext item
    simp
  rw [test]
  cases previous.zipIdx.reverse.find? fun item => decide (item.1.data.id = child.data.id) with
  | none => rfl
  | some item => simp [veil.sameShape_node]

theorem staying_veiled (previous current : List (Tree Node)) :
    staying (previous.map (Tree.map veil.node)) (current.map (Tree.map veil.node)) =
      staying previous current := by
  unfold staying
  rw [List.map_map]
  have found : (current.map (counterpart? (previous.map (Tree.map veil.node)) ∘
      Tree.map veil.node)) = current.map (counterpart? previous) :=
    List.map_congr_left fun child _ => counterpart?_veiled previous child
  rw [found]

theorem removals_veiled (parent : NodeId) (previous : List (Tree Node))
    (stay : List (Option Nat)) :
    removals parent (previous.map (Tree.map veil.node)) stay =
      (removals parent previous stay).map veil.record := by
  unfold removals
  rw [List.zipIdx_map, List.filterMap_map, List.map_filterMap]
  apply List.filterMap_congr
  intro item _
  by_cases stays : some item.2 ∈ stay <;> simp [stays, Veil.record]

theorem additions_veiled (parent : NodeId) (children : List (Tree Node))
    (stay : List (Option Nat)) :
    additions parent (children.map (Tree.map veil.node)) stay =
      (additions parent children stay).map veil.record := by
  induction children generalizing stay with
  | nil => rfl
  | cons child children induction =>
      cases stay with
      | nil => rfl
      | cons position stay =>
          cases position with
          | some position => exact induction stay
          | none =>
              rw [List.map_cons, additions, additions, induction, List.map_append]
              cases children <;> simp [Veil.record]

/-- The values of an element's attributes, with the veil over them if it is masked. -/
def shownAttributes (veil : Veil) (masked : Bool) (attributes : Attributes) : Attributes :=
  if masked then veil.attributes attributes else attributes

theorem attributeDelta_veiled (oldMasked newMasked : Bool) (old new : Attributes) :
    attributeDelta (oldMasked != newMasked) (shownAttributes veil oldMasked old)
      (shownAttributes veil newMasked new) =
      if newMasked then (attributeDelta (oldMasked != newMasked) old new).map fun name value =>
        value.map (veil.value name)
      else attributeDelta (oldMasked != newMasked) old new := by
  apply Std.ExtTreeMap.ext_getElem?
  intro name
  have unlike : ∀ first second, veil.value name first = veil.value name second ↔ first = second :=
    fun first second => (veil.injective_value name).eq_iff
  cases oldMasked <;> cases newMasked <;>
    simp only [attributeDelta, shownAttributes, bne_self_eq_false, Bool.false_eq_true, if_true,
      if_false, Bool.false_bne, Bool.true_bne, Bool.not_false, KeyDelta.getElem?_restate,
      KeyDelta.getElem?_between, Veil.getElem?_attributes, Std.ExtTreeMap.getElem?_map] <;>
    cases old[name]? <;> cases new[name]? <;> simp [unlike, apply_ite (Option.map _)]

theorem shownAttributes_inj (masked : Bool) {first second : Attributes} :
    shownAttributes veil masked first = shownAttributes veil masked second ↔ first = second := by
  cases masked with
  | false => exact Iff.rfl
  | true => exact veil.attributes_injective.eq_iff

theorem kind_node_document {node : Node} (kind : node.kind = .document) :
    (veil.node node).kind = .document := by
  rw [veil.kind_node, kind]
  split <;> rfl

theorem kind_node_text {node : Node} {content : String} {isStyle : Bool}
    (kind : node.kind = .text content isStyle) : (veil.node node).kind =
      .text (if node.masked then veil.replace content else content) isStyle := by
  rw [veil.kind_node, kind]
  split <;> rfl

theorem kind_node_element {node : Node} {element : Element} (kind : node.kind = .element element) :
    (veil.node node).kind = .element
      { element with attributes := shownAttributes veil node.masked element.attributes } := by
  rw [veil.kind_node, kind, shownAttributes]
  split <;> rfl

/-- A change of a masked node is the same change, with the veil over it. -/
theorem faceChanges_veiled {old new : Node} (shape : old.kind.sameShape new.kind) :
    faceChanges (veil.node old) (veil.node new) = veil.changes (faceChanges old new) := by
  rcases sameShape_cases shape with ⟨oldKind, newKind⟩ |
    ⟨oldElement, newElement, oldKind, newKind, tags⟩ | ⟨oldText, newText, isStyle, oldKind, newKind⟩
  · simp only [faceChanges, kind_node_document oldKind, kind_node_document newKind, oldKind,
      newKind]
    rfl
  · rw [faceChanges_element oldKind newKind,
      faceChanges_element (kind_node_element oldKind) (kind_node_element newKind)]
    simp only [veil.masked_node, veil.id_node, attributeDelta_veiled]
    have alike : shownAttributes veil old.masked oldElement.attributes =
        shownAttributes veil new.masked newElement.attributes ∧
          oldElement.style = newElement.style ∧ old.masked = new.masked ↔
        oldElement.attributes = newElement.attributes ∧ oldElement.style = newElement.style ∧
          old.masked = new.masked := by
      by_cases masked : old.masked = new.masked
      · rw [masked, shownAttributes_inj]
      · simp [masked]
    simp only [alike]
    split <;> rfl
  · rw [faceChanges_text oldKind newKind,
      faceChanges_text (kind_node_text oldKind) (kind_node_text newKind)]
    simp only [veil.masked_node, veil.id_node]
    have alike : (if old.masked then veil.replace oldText else oldText) =
        (if new.masked then veil.replace newText else newText) ∧ old.masked = new.masked ↔
        oldText = newText ∧ old.masked = new.masked := by
      by_cases masked : old.masked = new.masked
      · cases flag : new.masked <;> simp [masked, flag, veil.injective.eq_iff]
      · simp [masked]
    simp only [alike]
    split <;> rfl

theorem changesBelow_veiled {slots : List (Option (Tree Node))} {children : List (Tree Node)}
    (pairs : Beside (fun before child =>
      changesAt (before.map veil.node) (child.map veil.node) =
        veil.changes (changesAt before child)) slots children) :
    changesBelow (slots.map (Option.map (Tree.map veil.node)))
      (children.map (Tree.map veil.node)) = veil.changes (changesBelow slots children) := by
  induction pairs with
  | nil => rfl
  | fresh child _ induction => exact induction
  | kept first _ induction =>
      simp only [List.map_cons, Option.map_some, changesBelow]
      rw [first, induction, veil.changes_append]

theorem changesAt_veiled {previous current : Tree Node}
    (shape : previous.data.kind.sameShape current.data.kind) :
    changesAt (previous.map veil.node) (current.map veil.node) =
      veil.changes (changesAt previous current) := by
  induction current using Tree.children_induction generalizing previous with
  | step now children induction =>
      have below : Beside (fun before child =>
          changesAt (before.map veil.node) (child.map veil.node) =
            veil.changes (changesAt before child)) (slots previous.children children) children := by
        apply (slots_matched previous.children children).imp
        intro before child pair
        exact induction child pair.present pair.shape
      have slotsVeiled : (staying previous.children children).map
          (fun position => position.bind ((previous.children.map (Tree.map veil.node))[·]?)) =
          (slots previous.children children).map (Option.map (Tree.map veil.node)) := by
        rw [slots, List.map_map]
        apply List.map_congr_left
        intro position _
        cases position <;> simp
      simp only [Tree.map_node, changesAt, Tree.children_map, Tree.data_map, staying_veiled]
      have face : faceChanges (veil.node previous.data) (veil.node now) =
          veil.changes (faceChanges previous.data now) := faceChanges_veiled shape
      rw [slotsVeiled, changesBelow_veiled below, face, veil.changes_append, veil.changes_append,
        additions_veiled, removals_veiled, veil.id_node]
      rfl

/-- The changes between two documents, seen through the veil. -/
theorem changes_veiled (previous current : Tree Node) :
    changes (previous.map veil.node) (current.map veil.node) =
      (changes previous current).map (List.map veil.record) := by
  unfold changes
  simp only [Tree.data_map, veil.id_node, veil.sameShape_node]
  split
  case isTrue alike =>
    rw [changesAt_veiled alike.2]
    simp [Except.map, Changes.records, Veil.changes]
  case isFalse => rfl

end Document

namespace Wire.Encoder

variable {veil : Veil} (encoder : Encoder)

theorem alike_text (masked : Bool) (text : String) :
    AlikeText masked (if masked then veil.replace text else text) text := by
  cases masked with
  | false => exact .inl rfl
  | true => exact .inr ⟨rfl, veil.length_replace text⟩

theorem alike_value (masked : Bool) (name value : String) :
    AlikeValue masked name (if masked then veil.value name value else value) value := by
  cases masked with
  | false => exact .inl rfl
  | true =>
      rw [if_pos rfl, Veil.value]
      split
      case isTrue content =>
        right
        simp only [Veil.holdsContent, isSensitive, Bool.or_eq_true, decide_eq_true_eq] at content
        refine ⟨rfl, ?_⟩
        rcases content with ((value | alt) | placeholder) | source
        · exact .inr ⟨by simp [value], veil.length_replace _⟩
        · exact .inr ⟨by simp [alt], veil.length_replace _⟩
        · exact .inr ⟨by simp [placeholder], veil.length_replace _⟩
        · exact .inl source
      case isFalse => exact .inl rfl

theorem rel_map {α : Type} {related : α → α → Prop} {f : α → α}
    (same : ∀ value, related (f value) value) (value : Option α) :
    Option.Rel related (value.map f) value := by
  cases value with
  | none => exact .none
  | some value => exact .some (same value)

theorem alike_attributes (masked : Bool) (attributes : Attributes) (name : String) :
    Option.Rel (AlikeValue masked name)
      (Document.shownAttributes veil masked attributes)[name]? attributes[name]? := by
  have shown : (Document.shownAttributes veil masked attributes)[name]? =
      attributes[name]?.map fun value => if masked then veil.value name value else value := by
    cases masked with
    | false => exact Option.map_id'.symm
    | true => exact veil.getElem?_attributes attributes name
  rw [shown]
  exact rel_map (alike_value masked name) _

/-- A node with the veil over it is sent like the node itself. -/
theorem alike_node (node : SessionReplay.Node) : AlikeNode (veil.node node) node where
  id := veil.id_node node
  masked := veil.masked_node node
  kind := by
    cases kind : node.kind with
    | document =>
        rw [Document.kind_node_document kind]
        exact .document
    | element element =>
        rw [Document.kind_node_element kind]
        exact .element (alike_attributes node.masked element.attributes)
    | text content isStyle =>
        rw [Document.kind_node_text kind]
        exact .text (alike_text node.masked content)

theorem alike_record (record : Record) : AlikeRecord (veil.record record) record := by
  cases record with
  | add parent next subtree => exact .add (Tree.matches_map alike_node subtree)
  | remove parent id => exact .remove
  | text id content masked => exact .text (alike_text masked content)
  | attributes id masked attributes style =>
      apply AlikeRecord.attributes
      intro name
      have shown : (if masked then attributes.map fun name value => value.map (veil.value name)
          else attributes)[name]? = attributes[name]?.map (Option.map fun value =>
            if masked then veil.value name value else value) := by
        cases masked with
        | false => simp
        | true => simp [Std.ExtTreeMap.getElem?_map]
      rw [shown]
      exact rel_map (rel_map (alike_value masked name)) _

theorem encodeTree_veiled (tree : Tree SessionReplay.Node) :
    encoder.encodeTree (tree.map veil.node) = encoder.encodeTree tree :=
  encoder.encodeTree_alike (Tree.matches_map alike_node tree)

theorem encodeRecords_veiled (records : List Record) (time : Timestamp) :
    encoder.encodeRecords (records.map veil.record) time = encoder.encodeRecords records time := by
  have alike : List.Forall₂ AlikeRecord (records.map veil.record) records := by
    rw [List.forall₂_map_left_iff, List.forall₂_same]
    exact fun record _ => alike_record record
  rw [encodeRecords, encodeRecords, encoder.mutationOf_alike alike]

end Wire.Encoder

end SessionReplay
