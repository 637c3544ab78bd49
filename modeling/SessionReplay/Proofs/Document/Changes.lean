import SessionReplay.Proofs.Document.Staying

/-!
What the changes from one document to the next can be: which nodes the removals and the additions
are about, and what the new texts and attributes say. The changes are four lists, and each of them
is put together from the nodes in the same way.
-/

namespace SessionReplay.Document

/-- A comparison that succeeds is one of two documents with the same root. -/
theorem changes_ok {previous current : Tree Node} {records : List Record}
    (compared : changes previous current = .ok records) :
    previous.data.id = current.data.id ∧ previous.data.kind.sameShape current.data.kind ∧
      (changesAt previous current).records = records := by
  unfold changes at compared
  split at compared
  case isTrue alike => exact ⟨alike.1, alike.2, Except.ok.inj compared⟩
  case isFalse => contradiction

theorem ids_node (data : Node) (children : List (Tree Node)) :
    ids (.node data children) = data.id :: children.flatMap ids := by
  simp only [ids, Tree.preorder_node, List.map_cons, List.map_flatMap]
  rfl

theorem ids_child {data : Node} {children : List (Tree Node)} {child : Tree Node}
    (member : child ∈ children) : (ids child).Sublist (ids (.node data children)) := by
  rw [ids_node, List.flatMap_def]
  exact (List.sublist_flatten_of_mem (List.mem_map_of_mem member)).cons _

theorem ids_inside {part tree : Tree Node} (inside : Tree.Inside part tree) :
    (ids part).Sublist (ids tree) :=
  inside.preorder_sublist.map _

theorem id_mem_ids (tree : Tree Node) : tree.data.id ∈ ids tree :=
  List.mem_map_of_mem (Tree.data_mem_preorder tree)

/-- One of the four lists that changes consist of. -/
structure Additive (part : Changes → List Record) : Prop where
  empty : part {} = []
  append : ∀ first second, part (first ++ second) = part first ++ part second

theorem additive_removes : Additive Changes.removes := ⟨rfl, fun _ _ => rfl⟩

theorem additive_adds : Additive Changes.adds := ⟨rfl, fun _ _ => rfl⟩

theorem mem_changesBelow {part : Changes → List Record} (additive : Additive part)
    {related : Tree Node → Tree Node → Prop} {slots : List (Option (Tree Node))}
    {children : List (Tree Node)} (beside : Beside related slots children) {record : Record}
    (member : record ∈ part (changesBelow slots children)) :
    ∃ before child, related before child ∧ record ∈ part (changesAt before child) := by
  induction beside with
  | nil => simp [changesBelow, additive.empty] at member
  | fresh child _ induction => exact induction member
  | kept first _ induction =>
      rw [changesBelow, additive.append, List.mem_append] at member
      rcases member with here | below
      · exact ⟨_, _, first, here⟩
      · exact induction below

theorem faceChanges_moves_nothing (previous current : Node) :
    (faceChanges previous current).removes = [] ∧ (faceChanges previous current).adds = [] := by
  unfold faceChanges
  dsimp only
  split
  case h_1 => split <;> exact ⟨rfl, rfl⟩
  case h_2 => split <;> exact ⟨rfl, rfl⟩
  case h_3 => exact ⟨rfl, rfl⟩

theorem mem_removes {previous current : Tree Node} (same : previous.data.id = current.data.id)
    {record : Record} (member : record ∈ (changesAt previous current).removes) :
    ∃ parent id, record = .remove parent id ∧ parent ∈ ids previous := by
  induction current using Tree.children_induction generalizing previous with
  | step now children induction =>
      cases previous with
      | node old formers =>
          simp only [changesAt, additive_removes.append, List.mem_append] at member
          rcases member with (face | own) | below
          · simp [faceChanges_moves_nothing] at face
          · rw [removals_eq_map_leaving] at own
            obtain ⟨id, -, rfl⟩ := List.mem_map.mp own
            have root := id_mem_ids (.node old formers)
            rw [same] at root
            exact ⟨now.id, id, rfl, root⟩
          · obtain ⟨before, child, pair, found⟩ :=
              mem_changesBelow additive_removes (slots_matched formers children) below
            obtain ⟨parent, id, rfl, known⟩ := induction child pair.present pair.same found
            exact ⟨parent, id, rfl, (ids_child pair.former).subset known⟩

theorem mem_additions {parent : NodeId} {children : List (Tree Node)} {stay : List (Option Nat)}
    {record : Record} (member : record ∈ additions parent children stay) :
    ∃ next, ∃ child ∈ children, record = .add parent next child := by
  fun_induction additions parent children stay with
  | case1 child children stay induction =>
      rcases List.mem_append.mp member with below | here
      · obtain ⟨next, other, inside, rfl⟩ := induction below
        exact ⟨next, other, List.mem_cons_of_mem _ inside, rfl⟩
      · rw [List.mem_singleton.mp here]
        exact ⟨_, child, List.mem_cons_self, rfl⟩
  | case2 child children position stay induction =>
      obtain ⟨next, other, inside, rfl⟩ := induction member
      exact ⟨next, other, List.mem_cons_of_mem _ inside, rfl⟩
  | case3 => simp at member

theorem mem_adds {previous current : Tree Node} {record : Record}
    (member : record ∈ (changesAt previous current).adds) :
    ∃ parent next subtree, record = .add parent next subtree ∧ parent ∈ ids current ∧
      ∃ child ∈ current.children, Tree.Inside subtree child := by
  induction current using Tree.children_induction generalizing previous with
  | step now children induction =>
      simp only [changesAt, additive_adds.append, List.mem_append] at member
      rcases member with (face | own) | below
      · simp [faceChanges_moves_nothing] at face
      · obtain ⟨next, child, inside, rfl⟩ := mem_additions own
        exact ⟨now.id, next, child, rfl, by simp [ids_node], child, inside, .itself child⟩
      · obtain ⟨before, child, pair, found⟩ :=
          mem_changesBelow additive_adds (slots_matched previous.children children) below
        obtain ⟨parent, next, subtree, rfl, known, grandchild, inside, brought⟩ :=
          induction child pair.present found
        exact ⟨parent, next, subtree, rfl, (ids_child pair.present).subset known, child,
          pair.present, .of_child inside brought⟩

theorem mem_faceChanges {previous current : Node} {record : Record}
    (member : record ∈ (faceChanges previous current).texts ∨
      record ∈ (faceChanges previous current).attributes) :
    (∃ content masked, record = .text current.id content masked) ∨
      ∃ masked attributes style, record = .attributes current.id masked attributes style := by
  unfold faceChanges at member
  dsimp only at member
  split at member
  case h_1 => split at member <;> simp_all
  case h_2 => split at member <;> simp_all
  case h_3 => simp at member

theorem sameShape_cases {first second : Kind} (shape : first.sameShape second) :
    (first = .document ∧ second = .document) ∨
    (∃ old new, first = .element old ∧ second = .element new ∧ old.tag = new.tag) ∨
    (∃ old new isStyle, first = .text old isStyle ∧ second = .text new isStyle) := by
  cases first <;> cases second <;> simp_all [Kind.sameShape]

theorem faceChanges_text {old new : Node} {oldText newText : String} {oldStyle newStyle : Bool}
    (oldKind : old.kind = .text oldText oldStyle) (newKind : new.kind = .text newText newStyle) :
    faceChanges old new =
      if oldText = newText ∧ old.masked = new.masked then {}
      else { texts := [.text new.id newText new.masked] } := by
  simp only [faceChanges, oldKind, newKind]
  by_cases text : oldText = newText
  · by_cases masked : old.masked = new.masked <;> simp [text, masked]
  · simp [text]

theorem faceChanges_element {old new : Node} {oldElement newElement : Element}
    (oldKind : old.kind = .element oldElement) (newKind : new.kind = .element newElement) :
    faceChanges old new =
      if oldElement.attributes = newElement.attributes ∧ oldElement.style = newElement.style ∧
        old.masked = new.masked then {}
      else
        { attributes := [.attributes new.id new.masked
            (attributeDelta (old.masked != new.masked) oldElement.attributes newElement.attributes)
            (KeyDelta.between oldElement.style newElement.style)] } := by
  simp only [faceChanges, oldKind, newKind]
  by_cases masked : old.masked = new.masked
  · simp only [masked, bne_self_eq_false, attributeDelta, Bool.false_eq_true, if_false,
      Bool.or_false, and_true, ← KeyDelta.isEmpty_between_iff]
    by_cases attributes : (KeyDelta.between oldElement.attributes newElement.attributes).isEmpty
    · by_cases style : (KeyDelta.between oldElement.style newElement.style).isEmpty <;>
        simp [attributes, style]
    · simp [attributes]
  · simp [masked]

/-- A node has new text or new attributes, and not both. -/
theorem faceChanges_one_sort (previous current : Node) :
    (faceChanges previous current).texts = [] ∨ (faceChanges previous current).attributes = [] := by
  unfold faceChanges
  dsimp only
  split
  case h_1 => split <;> exact .inr rfl
  case h_2 => split <;> exact .inl rfl
  case h_3 => exact .inl rfl

/-- The records of such a part change nodes where they are. -/
structure Revising (part : Changes → List Record) : Prop extends Additive part where
  still : ∀ removes adds, part { removes, adds } = []

theorem revising_texts : Revising Changes.texts := ⟨⟨rfl, fun _ _ => rfl⟩, fun _ _ => rfl⟩

theorem revising_attributes : Revising Changes.attributes :=
  ⟨⟨rfl, fun _ _ => rfl⟩, fun _ _ => rfl⟩

theorem mem_revisions {part : Changes → List Record} (revising : Revising part)
    {previous current : Tree Node} (same : previous.data.id = current.data.id)
    (shape : previous.data.kind.sameShape current.data.kind) {record : Record}
    (member : record ∈ part (changesAt previous current)) :
    ∃ old ∈ previous.preorder, ∃ new ∈ current.preorder, old.id = new.id ∧
      old.kind.sameShape new.kind ∧ record ∈ part (faceChanges old new) := by
  induction current using Tree.children_induction generalizing previous with
  | step now children induction =>
      obtain ⟨before, formers⟩ := previous
      simp only [changesAt, revising.append, revising.still, List.append_nil,
        List.mem_append] at member
      rcases member with face | below
      · exact ⟨before, Tree.data_mem_preorder _, now, Tree.data_mem_preorder _, same, shape, face⟩
      · obtain ⟨former, child, pair, found⟩ :=
          mem_changesBelow revising.toAdditive (slots_matched formers children) below
        obtain ⟨old, oldInside, new, newInside, rest⟩ :=
          induction child pair.present pair.same pair.shape found
        exact ⟨old, Tree.mem_preorder_of_child pair.former oldInside,
          new, Tree.mem_preorder_of_child pair.present newInside, rest⟩

end SessionReplay.Document
