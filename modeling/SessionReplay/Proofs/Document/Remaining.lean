import SessionReplay.Proofs.Document.Accepting
import SessionReplay.Proofs.Document.Pairing

/-!
What is left of a document when the removals of a comparison are made. Every node that a record
finds where it is, because it gets or loses a child there or has new contents, is one of those left.
Whatever is hidden of document nodes, the records can be taken one after the other.
-/

namespace SessionReplay

/-- The node that a record finds and leaves where it is. -/
def Record.anchor (record : Record) : NodeId := record.parent?.getD record.target

/-- A record changes what a node is, and not where. -/
def Record.isContent (record : Record) : Bool := record.isText || record.isAttributes

namespace Document

/-- What is left of the previous document when the removals are made. -/
def remaining (previous current : Tree Node) : Tree Node :=
  blend (fun _ => []) (fun old _ => old) previous current

theorem weave_remaining (kept : Tree Node → Tree Node → Tree Node)
    (slots : List (Option (Tree Node))) (children : List (Tree Node)) :
    weave kept (fun _ => []) slots children =
      (pairs slots children).map fun pair => kept pair.1 pair.2 := by
  fun_induction pairs slots children with
  | case1 before slots child children induction => rw [weave, induction, List.map_cons]
  | case2 slots child children induction => rw [weave, List.nil_append, induction]
  | case3 slots children noPair noGap =>
      rw [weave]
      · rfl
      · exact noPair
      · exact noGap

theorem remaining_eq (previous current : Tree Node) : remaining previous current =
    .node previous.data
      ((keptPairs previous current).map fun pair => remaining pair.1 pair.2) := by
  obtain ⟨now, children⟩ := current
  rw [remaining, blend_node, weave_remaining]
  rfl

theorem play_remaining {previous current : Tree Node}
    (same : previous.data.id = current.data.id) (distinct : (ids previous).Nodup) :
    previous.play Node.id ((changesAt previous current).removes.map Record.edit) =
      some (remaining previous current) := by
  have edits : (changesAt previous current).removes.map Record.edit =
      (changesAt previous current).removes.flatMap
        (editsOf id (fun node => node) fun _ => []) := by
    rw [← List.flatMap_pure_eq_map]
    apply List.flatMap_congr
    intro record member
    obtain ⟨parent, id, rfl, -⟩ := mem_removes same member
    rfl
  have labelled : ∀ node : Node, Node.id ((fun node => node) node) = id node.id := fun _ => rfl
  have played := play_removes (fun _ => []) labelled Function.injective_id same distinct
  rw [Tree.map_id, ← edits] at played
  exact played

/-- The nodes that records of one kind find are left by the removals. -/
theorem anchor_left {part : Changes → List Record} (additive : Additive part)
    (own : ∀ previous current, ∀ record ∈ part (faceChanges previous.data current.data) ++
      part (moves previous current), record.anchor = current.data.id)
    {previous current : Tree Node} (same : previous.data.id = current.data.id) :
    ∀ record ∈ part (changesAt previous current),
      record.anchor ∈ ids (remaining previous current) := by
  induction current using Tree.children_induction generalizing previous with
  | step now children induction =>
      intro record member
      have split : part (changesAt previous (.node now children)) =
          (part (faceChanges previous.data now) ++ part (moves previous (.node now children))) ++
            (keptPairs previous (.node now children)).flatMap fun pair =>
              part (changesAt pair.1 pair.2) := by
        rw [changesAt, additive.append, additive.append, part_changesBelow additive]
        rfl
      rw [remaining_eq, ids_node]
      rw [split, List.mem_append] at member
      rcases member with here | below
      · rw [own previous (.node now children) record here, ← same]
        exact List.mem_cons_self
      · obtain ⟨pair, kept, inside⟩ := List.mem_flatMap.mp below
        have matched := matched_keptPairs previous (.node now children) pair kept
        refine List.mem_cons_of_mem _ (List.mem_flatMap.mpr
          ⟨_, List.mem_map_of_mem kept, ?_⟩)
        exact induction pair.2 matched.present matched.same record inside

theorem anchor_moving {part : Changes → List Record} (moving : Moving part)
    {previous current : Tree Node} (same : previous.data.id = current.data.id) {record : Record}
    (member : record ∈ part (changesAt previous current)) :
    record.anchor ∈ ids (remaining previous current) := by
  apply anchor_left moving.toAdditive _ same record member
  intro former latter record here
  rw [moving.still, List.nil_append] at here
  rw [Record.anchor, parent_moves moving here]
  rfl

theorem content_faceChanges {previous current : Node} {record : Record}
    (member : record ∈ (faceChanges previous current).texts ∨
      record ∈ (faceChanges previous current).attributes) :
    record.parent? = none ∧ record.target = current.id := by
  rcases mem_faceChanges member with ⟨text, masked, rfl⟩ | ⟨masked, attributes, style, rfl⟩
  · exact ⟨rfl, rfl⟩
  · exact ⟨rfl, rfl⟩

/-- The records that say what nodes are now. -/
def Changes.contents (changes : Changes) : List Record := changes.texts ++ changes.attributes

theorem anchor_revising {part : Changes → List Record} (revising : Revising part)
    (contents : ∀ changes, part changes ⊆ Changes.contents changes)
    {previous current : Tree Node} (same : previous.data.id = current.data.id) {record : Record}
    (member : record ∈ part (changesAt previous current)) :
    record.anchor ∈ ids (remaining previous current) := by
  apply anchor_left revising.toAdditive _ same record member
  intro former latter record here
  rw [moves, revising.still, List.append_nil] at here
  obtain ⟨still, target⟩ := content_faceChanges (List.mem_append.mp (contents _ here))
  rw [Record.anchor, still]
  exact target

theorem targets_faceChanges (previous current : Node) :
    ((faceChanges previous current).contents.map Record.target).Sublist [current.id] := by
  unfold faceChanges
  dsimp only
  split
  case h_1 =>
    split
    · exact List.Sublist.refl _
    · exact List.nil_sublist _
  case h_2 =>
    split
    · exact List.Sublist.refl _
    · exact List.nil_sublist _
  case h_3 => exact List.nil_sublist _

theorem count_contents (id : NodeId) (first second : Changes) :
    ((first ++ second).contents.map Record.target).count id =
      (first.contents.map Record.target).count id +
        (second.contents.map Record.target).count id := by
  have texts : (first ++ second).texts = first.texts ++ second.texts := rfl
  have attributes : (first ++ second).attributes = first.attributes ++ second.attributes := rfl
  simp only [Changes.contents, texts, attributes, List.map_append, List.count_append]
  omega

/-- A node is changed by no more records than it has places in the current document. -/
theorem count_contents_le (id : NodeId) (previous current : Tree Node) :
    ((changesAt previous current).contents.map Record.target).count id ≤
      (ids current).count id := by
  induction current using Tree.children_induction generalizing previous with
  | step now children induction =>
      have own : ((faceChanges previous.data now).contents.map Record.target).count id ≤
          [now.id].count id :=
        (targets_faceChanges previous.data now).count_le id
      have below : ((changesBelow (slots previous.children children) children).contents.map
          Record.target).count id ≤ (children.flatMap ids).count id := by
        have bounds : Beside (fun before child =>
            ((changesAt before child).contents.map Record.target).count id ≤ (ids child).count id)
            (slots previous.children children) children :=
          (slots_matched previous.children children).imp fun before child matched =>
            induction child matched.present before
        generalize slots previous.children children = slots at bounds
        clear induction
        induction bounds with
        | nil => exact Nat.le_refl _
        | fresh child _ induction =>
            rw [List.flatMap_cons, List.count_append]
            exact Nat.le_add_left_of_le induction
        | kept first _ induction =>
            rw [changesBelow, count_contents, List.flatMap_cons, List.count_append]
            exact Nat.add_le_add first induction
      rw [slots] at below
      have still : ∀ removes adds, (Changes.contents { removes, adds }) = [] := fun _ _ => rfl
      rw [changesAt, count_contents, count_contents, still, ids_node, List.count_cons]
      rw [List.count_singleton] at own
      simp only [List.map_nil, List.count_nil, Nat.add_zero]
      omega

theorem once_contents {previous current : Tree Node} (distinct : (ids current).Nodup) :
    ((changesAt previous current).contents.map Record.target).Nodup := by
  rw [List.nodup_iff_count_le_one]
  intro id
  exact (count_contents_le id previous current).trans (List.nodup_iff_count_le_one.mp distinct id)

/-- Nothing is hidden of a document node. -/
def plain (node : Node) : Node := { node with masked := node.masked && node.kind != .document }

theorem plain_of_ne {node : Node} (kind : node.kind ≠ .document) : plain node = node := by
  have other : (node.kind != .document) = true := bne_iff_ne.mpr kind
  simp [plain, other]

theorem masked_plain {node : Node} (kind : (plain node).kind = .document) :
    (plain node).masked = false := by
  have same : node.kind = .document := kind
  simp [plain, same]

theorem faithful_plain : Replica.Faithful fun node => Replica.Item.of (plain node) where
  named _ := rfl
  document _ kind := kind
  others node kind := by rw [plain_of_ne kind]

theorem faceChanges_plain {old new : Node} (shape : old.kind.sameShape new.kind) :
    faceChanges (plain old) (plain new) = faceChanges old new := by
  rcases sameShape_cases shape with ⟨oldKind, newKind⟩ |
    ⟨oldElement, newElement, oldKind, newKind, -⟩ | ⟨oldText, newText, isStyle, oldKind, newKind⟩
  · have plainKind : (plain old).kind = .document := oldKind
    simp [faceChanges, oldKind, plainKind]
  · rw [plain_of_ne (by simp [oldKind]), plain_of_ne (by simp [newKind])]
  · rw [plain_of_ne (by simp [oldKind]), plain_of_ne (by simp [newKind])]

/-- The edits that the records stand for can be made one after the other. -/
theorem played_changes {previous current : Tree Node} {records : List Record}
    (compared : changes previous current = .ok records) (previousDistinct : (ids previous).Nodup)
    (currentDistinct : (ids current).Nodup) :
    ∃ result, previous.play Node.id (records.map Record.edit) = some result := by
  apply Replica.played_of_shown faithful_plain
  apply play_changes Replica.content (fun _ => rfl) Function.injective_id compared
    previousDistinct currentDistinct Replica.names_content
  intro old _ new _ same shape children
  have edits : ((faceChanges old new).texts ++ (faceChanges old new).attributes).flatMap
      (editsOf id (fun node => Replica.Item.of (plain node)) Replica.content) =
      ((faceChanges old new).texts ++ (faceChanges old new).attributes).flatMap
        Replica.editsOf := by
    apply List.flatMap_congr
    intro record member
    rcases mem_faceChanges (List.mem_append.mp member) with ⟨text, masked, rfl⟩ |
      ⟨masked, attributes, style, rfl⟩
    · rfl
    · rfl
  rw [edits, ← faceChanges_plain shape]
  have named : (plain old).id = (plain new).id := same
  have alike : (plain old).kind.sameShape (plain new).kind := shape
  exact play_faceChanges named alike masked_plain masked_plain children

end Document

end SessionReplay
