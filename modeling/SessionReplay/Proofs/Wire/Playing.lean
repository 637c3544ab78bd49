import SessionReplay.Proofs.Document.Sorting
import SessionReplay.Proofs.Document.Transition
import SessionReplay.Proofs.Wire.Player

/-!
The changes of a document as a player carries them out. Played on what is shown of the previous
document, the mutation that is sent for the changes leads to what is shown of the current one:
through masking that comes and goes, and through attributes that are left out while it lasts.
-/

namespace SessionReplay

namespace Wire.Encoder

open SessionReplay.Document (Changes Sorted act editsOf faceChanges)

variable (encoder : Encoder)

/-- The edits that one record is sent as. -/
def sent (record : Record) : List (Edit Id Item) := (encoder.mutationOf [record]).edits

/-- What is sent of a record that moves no nodes. -/
def revisions (record : Record) : List (Edit Id Item) :=
  (encoder.mutationOf [record]).rewriting ++ (encoder.mutationOf [record]).resetting

/-- A part of a mutation to which each record adds its own. -/
theorem part_mutationOf {β : Type} {part : Mutation → List β} (empty : part {} = [])
    (adds : ∀ record mutation, part (encoder.encodeRecord record mutation) =
      part (encoder.encodeRecord record {}) ++ part mutation) (records : List Record) :
    part (encoder.mutationOf records) =
      records.flatMap fun record => part (encoder.mutationOf [record]) := by
  induction records with
  | nil => exact empty
  | cons record records induction =>
      rw [List.flatMap_cons, ← induction]
      exact adds record (encoder.mutationOf records)

theorem parts_encodeRecord (record : Record) (mutation : Mutation) :
    let alone := encoder.encodeRecord record {}
    let added := encoder.encodeRecord record mutation
    added.removing = alone.removing ++ mutation.removing ∧
      added.adding = alone.adding ++ mutation.adding ∧
      added.rewriting = alone.rewriting ++ mutation.rewriting ∧
      added.resetting = alone.resetting ++ mutation.resetting := by
  cases record with
  | add parent next subtree => exact ⟨rfl, rfl, rfl, rfl⟩
  | remove parent id => exact ⟨rfl, rfl, rfl, rfl⟩
  | text id content masked => exact ⟨rfl, rfl, rfl, rfl⟩
  | attributes id masked attributes style =>
      simp only [encodeRecord]
      split
      · exact ⟨rfl, rfl, rfl, rfl⟩
      · exact ⟨rfl, rfl, rfl, rfl⟩

theorem parts_sent (record : Record) :
    (encoder.mutationOf [record]).removing =
        (if act record = .remove then encoder.sent record else []) ∧
      (encoder.mutationOf [record]).adding =
        (if act record = .add then encoder.sent record else []) ∧
      (encoder.mutationOf [record]).rewriting =
        (if act record = .text then encoder.sent record else []) ∧
      (encoder.mutationOf [record]).resetting =
        (if act record = .attributes then encoder.sent record else []) := by
  cases record with
  | add parent next subtree => exact ⟨rfl, rfl, rfl, rfl⟩
  | remove parent id => exact ⟨rfl, rfl, rfl, rfl⟩
  | text id content masked => exact ⟨rfl, rfl, rfl, rfl⟩
  | attributes id masked attributes style =>
      simp only [sent, mutationOf, List.foldr_cons, List.foldr_nil, encodeRecord]
      split
      · exact ⟨rfl, rfl, rfl, rfl⟩
      · exact ⟨rfl, rfl, rfl, rfl⟩

/-- Records that come by kind are sent as the edits that each of them is sent as. -/
theorem edits_mutationOf {changes : Changes} (sorted : Sorted changes) :
    (encoder.mutationOf changes.records).edits = changes.records.flatMap encoder.sent := by
  have removing := encoder.part_mutationOf rfl
    (fun record mutation => (encoder.parts_encodeRecord record mutation).1) changes.records
  have adding := encoder.part_mutationOf rfl
    (fun record mutation => (encoder.parts_encodeRecord record mutation).2.1) changes.records
  have rewriting := encoder.part_mutationOf rfl
    (fun record mutation => (encoder.parts_encodeRecord record mutation).2.2.1) changes.records
  have resetting := encoder.part_mutationOf rfl
    (fun record mutation => (encoder.parts_encodeRecord record mutation).2.2.2) changes.records
  simp only [parts_sent, sorted.flatMap] at removing adding rewriting resetting
  rw [Mutation.edits, removing, adding, rewriting, resetting, Changes.records]
  simp only [List.flatMap_append]

theorem getElem?_namedValues {masked : Bool} {attributes style : KeyDelta}
    (plain : "style" ∉ attributes) (name : String) :
    (namedValues (encoder.attributeValues masked attributes style))[name]? =
      attributes[name]?.map fun value =>
        if masked then value.bind (encoder.hidden name) else value := by
  have absent := Std.ExtTreeMap.getElem?_eq_none plain
  rw [namedValues, Std.ExtTreeMap.getElem?_filterMap']
  by_cases same : name = "style"
  · rw [same, absent]
    unfold attributeValues
    dsimp only
    split
    · rw [Std.ExtTreeMap.getElem?_map, absent]
      rfl
    · rw [Std.ExtTreeMap.getElem?_insert_self]
      rfl
  · have listed : (encoder.attributeValues masked attributes style)[name]? =
        attributes[name]?.map (encoder.attributeValue masked name) := by
      unfold attributeValues
      dsimp only
      split
      · rw [Std.ExtTreeMap.getElem?_map]
      · rw [Std.ExtTreeMap.getElem?_insert, Std.ExtTreeMap.getElem?_map, if_neg]
        intro equal
        exact same (Std.LawfulEqOrd.eq_of_compare equal).symm
    rw [listed]
    cases attributes[name]? with
    | none => rfl
    | some value => simp [attributeValue, same]

theorem newStyle_attributeValues {masked : Bool} {attributes : KeyDelta}
    (plain : "style" ∉ attributes) (old new : Style) :
    newStyle old (encoder.attributeValues masked attributes (KeyDelta.between old new))["style"]? =
      new := by
  unfold attributeValues
  dsimp only
  split
  case isTrue empty =>
    rw [Std.ExtTreeMap.getElem?_map, Std.ExtTreeMap.getElem?_eq_none plain]
    exact KeyDelta.isEmpty_between_iff.mp empty
  case isFalse =>
    rw [Std.ExtTreeMap.getElem?_insert_self]
    exact KeyDelta.apply_between old new

theorem style_not_mem_attributeDelta (flipped : Bool) {old new : Attributes}
    (oldPlain : "style" ∉ old) (newPlain : "style" ∉ new) :
    "style" ∉ Document.attributeDelta flipped old new := by
  rw [Std.ExtTreeMap.mem_iff_isSome_getElem?]
  unfold Document.attributeDelta
  split
  · rw [KeyDelta.getElem?_restate, KeyDelta.getElem?_between,
      Std.ExtTreeMap.getElem?_eq_none oldPlain, Std.ExtTreeMap.getElem?_eq_none newPlain]
    exact Bool.false_ne_true
  · rw [KeyDelta.getElem?_between, Std.ExtTreeMap.getElem?_eq_none oldPlain,
      Std.ExtTreeMap.getElem?_eq_none newPlain]
    exact Bool.false_ne_true

/-- The values that are sent for a change of attributes lead from what was shown of them to what
is shown now, whether they are masked before or after. -/
theorem apply_namedValues {oldMasked newMasked : Bool} {old new : Attributes} {style : KeyDelta}
    (oldPlain : "style" ∉ old) (newPlain : "style" ∉ new) :
    (namedValues (encoder.attributeValues newMasked
        (Document.attributeDelta (oldMasked != newMasked) old new) style)).apply
      (encoder.visibleAttributes oldMasked old) = encoder.visibleAttributes newMasked new := by
  have plain := style_not_mem_attributeDelta (oldMasked != newMasked) oldPlain newPlain
  apply Std.ExtTreeMap.ext_getElem?
  intro name
  rw [KeyDelta.getElem?_apply, getElem?_namedValues _ plain, getElem?_visibleAttributes,
    getElem?_visibleAttributes]
  unfold Document.attributeDelta
  by_cases same : oldMasked = newMasked
  · rw [same, bne_self_eq_false, if_neg Bool.false_ne_true, KeyDelta.getElem?_between]
    by_cases equal : old[name]? = new[name]?
    · rw [if_pos equal, equal]
      rfl
    · rw [if_neg equal]
      cases newMasked <;> cases new[name]? <;> rfl
  · rw [if_pos (bne_iff_ne.mpr same), KeyDelta.getElem?_restate, KeyDelta.getElem?_between]
    cases new[name]? with
    | some value => cases newMasked <;> rfl
    | none =>
        cases old[name]? with
        | none => rfl
        | some value => cases newMasked <;> rfl

theorem setAttributes_item {old new : SessionReplay.Node} {oldElement newElement : Element}
    (oldKind : old.kind = .element oldElement) (newKind : new.kind = .element newElement)
    (same : old.id = new.id) (tags : oldElement.tag = newElement.tag)
    (oldPlain : "style" ∉ oldElement.attributes) (newPlain : "style" ∉ newElement.attributes) :
    Item.setAttributes (encoder.attributeValues new.masked
        (Document.attributeDelta (old.masked != new.masked) oldElement.attributes
          newElement.attributes)
        (KeyDelta.between oldElement.style newElement.style)) (encoder.item id old) =
      some (encoder.item id new) := by
  have plain := style_not_mem_attributeDelta (old.masked != new.masked) oldPlain newPlain
  simp only [item, oldKind, newKind, Item.setAttributes, same, tags, id,
    apply_namedValues _ oldPlain newPlain, newStyle_attributeValues _ plain]

theorem setAttributes_empty {item changed : Item} (set : Item.setAttributes ∅ item = some changed) :
    changed = item := by
  cases item with
  | element id tag attributes style =>
      cases set
      have same : (namedValues ∅).apply attributes = attributes := by
        apply Std.ExtTreeMap.ext_getElem?
        intro name
        rw [KeyDelta.getElem?_apply, namedValues, Std.ExtTreeMap.getElem?_filterMap',
          Std.ExtTreeMap.getElem?_empty]
        rfl
      rw [same, Std.ExtTreeMap.getElem?_empty]
      rfl
  | document id => contradiction
  | text id content isStyle => contradiction

/-- A record that leaves nothing to send changes nothing. -/
theorem play_resetting {target : NodeId} {masked : Bool} {attributes style : KeyDelta}
    {shown changed : Item} (root : shown.id = .node target)
    (set : Item.setAttributes (encoder.attributeValues masked attributes style) shown =
      some changed)
    (kept : changed.id = shown.id) (children : List Page) :
    (Tree.node shown children).play Item.id
        (encoder.revisions (.attributes target masked attributes style)) =
      some (.node changed children) := by
  simp only [revisions, mutationOf, List.foldr_cons, List.foldr_nil, encodeRecord]
  split
  case isTrue nothing =>
    rw [Std.ExtTreeMap.isEmpty_iff.mp nothing] at set
    rw [setAttributes_empty set]
    rfl
  case isFalse => exact Tree.play_revise root set kept

/-- A node that stays is revised to what is shown of it now. -/
theorem play_faceChanges {old new : SessionReplay.Node} (same : old.id = new.id)
    (shape : old.kind.sameShape new.kind)
    (oldPlain : ∀ element, old.kind = .element element → "style" ∉ element.attributes)
    (newPlain : ∀ element, new.kind = .element element → "style" ∉ element.attributes)
    (children : List Page) :
    (Tree.node (encoder.item id old) children).play Item.id
        (((faceChanges old new).texts ++ (faceChanges old new).attributes).flatMap
          (editsOf Id.node (encoder.item id) encoder.revisions)) =
      some (.node (encoder.item id new) children) := by
  have root : Item.id (encoder.item id old) = .node new.id := by rw [id_item, same]
  have kept : Item.id (encoder.item id new) = Item.id (encoder.item id old) := by
    rw [id_item, id_item, same]
  rcases Document.sameShape_cases shape with ⟨oldKind, newKind⟩ |
    ⟨oldElement, newElement, oldKind, newKind, tags⟩ | ⟨oldText, newText, isStyle, oldKind, newKind⟩
  · simp only [faceChanges, item, oldKind, newKind, same, List.append_nil, List.flatMap_nil]
    rfl
  · have set := encoder.setAttributes_item oldKind newKind same tags (oldPlain _ oldKind)
      (newPlain _ newKind)
    rw [Document.faceChanges_element oldKind newKind]
    split
    case isTrue still =>
      obtain ⟨attributes, style, masked⟩ := still
      have unchanged : encoder.item id old = encoder.item id new := by
        simp only [item, oldKind, newKind, same, tags, attributes, style, masked]
      rw [unchanged]
      rfl
    case isFalse =>
      simp only [List.nil_append, List.flatMap_singleton, editsOf]
      exact encoder.play_resetting root set kept children
  · rw [Document.faceChanges_text oldKind newKind]
    split
    case isTrue still =>
      obtain ⟨content, masked⟩ := still
      have unchanged : encoder.item id old = encoder.item id new := by
        simp only [item, oldKind, newKind, same, content, masked]
      rw [unchanged]
      rfl
    case isFalse =>
      have set : Item.setText (encoder.visible new.masked newText) (encoder.item id old) =
          some (encoder.item id new) := by
        simp only [item, oldKind, newKind, Item.setText, same]
      exact Tree.play_revise root set kept

theorem item_reread {node : SessionReplay.Node} (legible : node.toFace.Legible) :
    encoder.item Style.reread node = encoder.item id node := by
  unfold item
  split
  case h_1 => rfl
  case h_2 element kind => rw [Style.reread, Style.parse_cssText (legible element kind), id]
  case h_3 => rfl

/-- Legible subtrees arrive as they are shown. -/
theorem sent_add {current subtree : Tree SessionReplay.Node} (sketch : Sketch current)
    (room : current.height ≤ encoder.maxDepth.toNat)
    (inside : ∃ child ∈ current.children, Tree.Inside subtree child)
    (legible : ∀ node ∈ subtree.preorder, node.toFace.Legible) (parent : NodeId)
    (next : Option NodeId) :
    encoder.sent (.add parent next subtree) =
      [.add (.node parent) (next.map Id.node) (subtree.map (encoder.item id))] := by
  obtain ⟨child, member, inside⟩ := inside
  have drawn := (sketch.below child member).inside inside
  have height := (Tree.Inside.of_child member inside).height_le
  have whole := encoder.read_encodeNode 0 drawn (by omega)
  have same : subtree.map (encoder.item Style.reread) = subtree.map (encoder.item id) :=
    Tree.map_congr fun node nodeInside => encoder.item_reread (legible node nodeInside)
  rw [← same, ← whole]
  rfl

section Changes

variable {previous current : Tree SessionReplay.Node} {records : List Record}

/-- If the styles that arrive with new nodes are legible, the changes are sent as what they are. -/
theorem edits_of_changes (compared : Document.changes previous current = .ok records)
    (sketch : Sketch current) (room : current.height ≤ encoder.maxDepth.toNat)
    (legible : ∀ parent next subtree, .add parent next subtree ∈ records →
      ∀ node ∈ subtree.preorder, node.toFace.Legible) :
    (encoder.mutationOf records).edits =
      records.flatMap (editsOf Id.node (encoder.item id) encoder.revisions) := by
  have listed := (Document.changes_ok compared).2.2
  have sorted := Document.sorted_changesAt previous current
  rw [← listed, encoder.edits_mutationOf sorted, listed]
  apply List.flatMap_congr
  intro record member
  cases record with
  | add parent next subtree =>
      have inside := Document.inside_of_added compared member
      exact encoder.sent_add sketch room inside (legible parent next subtree member) parent next
  | remove parent id => rfl
  | text id content masked => rfl
  | attributes id masked attributes style =>
      simp only [sent, editsOf, revisions, mutationOf, List.foldr_cons, List.foldr_nil,
        encodeRecord]
      split
      · rfl
      · rfl

/-- Played on what is shown of a document, the changes lead to what is shown of the next one. -/
theorem play_shown (compared : Document.changes previous current = .ok records)
    (previousDistinct : (Document.ids previous).Nodup)
    (currentDistinct : (Document.ids current).Nodup) (previousSketch : Sketch previous)
    (sketch : Sketch current) :
    (previous.map (encoder.item id)).play Item.id
        (records.flatMap (editsOf Id.node (encoder.item id) encoder.revisions)) =
      some (current.map (encoder.item id)) := by
  apply Document.play_changes encoder.revisions (encoder.id_item id) _ compared previousDistinct
    currentDistinct
  · intro record edit made
    cases record with
    | add parent next subtree => exact absurd made List.not_mem_nil
    | remove parent id => exact absurd made List.not_mem_nil
    | text id content masked =>
        rw [List.mem_singleton.mp made]
        rfl
    | attributes id masked attributes style =>
        simp only [revisions, mutationOf, List.foldr_cons, List.foldr_nil, encodeRecord] at made
        split at made
        · exact absurd made List.not_mem_nil
        · rw [List.mem_singleton.mp made]
          rfl
  · intro old oldInside new newInside same shape children
    exact encoder.play_faceChanges same shape
      (fun element kind => previousSketch.plain oldInside kind)
      (fun element kind => sketch.plain newInside kind) children
  · intro first second same
    exact Id.node.inj same

/-- A player of the mutation that is sent for the changes is led to what is shown of the next
document, if the styles that arrive with new nodes are legible. -/
theorem play_mutationOf {levels : Nat}
    (compared : Document.changes previous current = .ok records)
    (previousDistinct : (Document.ids previous).Nodup)
    (currentDistinct : (Document.ids current).Nodup)
    (previousDrawing : Capture.Drawing levels previous)
    (drawing : Capture.Drawing levels current) (room : levels ≤ encoder.maxDepth.toNat)
    (legible : ∀ parent next subtree, .add parent next subtree ∈ records →
      ∀ node ∈ subtree.preorder, node.toFace.Legible) :
    (previous.map (encoder.item id)).play Item.id (encoder.mutationOf records).edits =
      some (current.map (encoder.item id)) := by
  rw [encoder.edits_of_changes compared drawing.sketch (Nat.le_trans drawing.height room) legible]
  exact encoder.play_shown compared previousDistinct currentDistinct previousDrawing.sketch
    drawing.sketch

end Changes

end Wire.Encoder

end SessionReplay
