import Mathlib.Logic.Relation
import SessionReplay.Proofs.Document.Inserting
import SessionReplay.Proofs.Tree.Image

/-!
Which records a replica takes, and what it is then. Each record stands for an edit of the document.
The replica takes it when it fits the document, and is then the replica of the edited document, so
that its links never come apart.
-/

namespace SessionReplay

/-- The edit of a document that a record stands for. -/
def Record.edit : Record → Edit NodeId Node
  | add parent next subtree => .add parent next subtree
  | remove parent id => .remove parent id
  | text id content masked =>
      .revise id fun node =>
        match node.kind with
        | .text _ isStyle => some { node with kind := .text content isStyle, masked }
        | _ => none
  | attributes id masked delta style =>
      .revise id fun node =>
        match node.kind with
        | .element element =>
            some { node with
              kind := .element { element with
                attributes := delta.apply element.attributes
                style := style.apply element.style }
              masked }
        | _ => none

/-- A record is about nodes that the document has where the record says, and brings none that it
has. -/
inductive Record.Fits (tree : Tree Node) : Record → Prop
  | add {part : Tree Node} (inside : Tree.Inside part tree) {next : Option NodeId}
      (beside : ∀ id, next = some id → id ∈ part.children.map (·.data.id)) {subtree : Tree Node}
      (once : (Document.ids subtree).Nodup)
      (fresh : ∀ id ∈ Document.ids subtree, id ∉ Document.ids tree) :
      Fits tree (.add part.data.id next subtree)
  | remove {above child : Tree Node} (inside : Tree.Inside above tree)
      (listed : child ∈ above.children) : Fits tree (.remove above.data.id child.data.id)
  | text {node : Node} (member : node ∈ tree.preorder) {old : String} {isStyle : Bool}
      (kind : node.kind = .text old isStyle) (content : String) (masked : Bool) :
      Fits tree (.text node.id content masked)
  | attributes {node : Node} (member : node ∈ tree.preorder) {element : Element}
      (kind : node.kind = .element element) (masked : Bool) (attributes style : KeyDelta) :
      Fits tree (.attributes node.id masked attributes style)

theorem Record.edit_of_fits {record : Record} {tree : Tree Node}
    (distinct : (Document.ids tree).Nodup) (fits : record.Fits tree) :
    ∃ changed, tree.edit Node.id record.edit = some changed := by
  cases fits with
  | @add part inside next beside subtree once fresh =>
      have apart : (subtree.keys Node.id ++ tree.keys Node.id).Nodup := by
        refine List.nodup_append.mpr ⟨once, distinct, ?_⟩
        rintro id member _ taken rfl
        exact fresh id member taken
      obtain ⟨changed, done⟩ := Tree.insertChild_isSome beside subtree part.data
      obtain ⟨result, altered⟩ := Tree.changeAt_inside inside distinct done
      exact ⟨result, by rw [edit, Tree.edit, if_pos apart, altered]⟩
  | @remove above child inside listed =>
      apply Tree.changeAt_inside inside distinct
      rw [Tree.removeChild, if_pos (List.mem_map_of_mem listed)]
  | text member kind content masked =>
      obtain ⟨part, inside, rfl⟩ := Tree.inside_of_mem member
      apply Tree.changeAt_inside inside distinct
      simp only [Tree.reviseData, kind, Option.filter_some, decide_true, if_true, Option.map_some]
      rfl
  | attributes member kind masked attributes style =>
      obtain ⟨part, inside, rfl⟩ := Tree.inside_of_mem member
      apply Tree.changeAt_inside inside distinct
      simp only [Tree.reviseData, kind, Option.filter_some, decide_true, if_true, Option.map_some]
      rfl

namespace Replica

/-- Nodes as a replica keeps them, except for what is hidden of document nodes. -/
structure Faithful (shown : Node → Item) : Prop where
  named : ∀ node, (shown node).id = node.id
  document : ∀ node, node.kind = .document → (shown node).kind = .document
  others : ∀ node, node.kind ≠ .document → shown node = Item.of node

theorem faithful_of : Faithful Item.of :=
  ⟨fun _ => rfl, fun _ kind => kind, fun _ _ => rfl⟩

theorem play_shown {shown : Node → Item} (faithful : Faithful shown) (record : Record)
    (tree : Tree Node) :
    (tree.map shown).play Item.id (Document.editsOf id shown content record) =
      (tree.edit Node.id record.edit).map (Tree.map shown) := by
  have image : ∃ image, Document.editsOf id shown content record = [image] ∧
      record.edit.Image shown image := by
    cases record with
    | add parent next subtree =>
        refine ⟨_, rfl, ?_⟩
        rw [Option.map_id]
        exact .add parent next subtree
    | remove parent id => exact ⟨_, rfl, .remove parent id⟩
    | text id content masked =>
        refine ⟨_, rfl, .revise id fun node => ?_⟩
        cases kind : node.kind with
        | document => simp [faithful.document node kind]
        | element => simp [faithful.others, kind, Item.of]
        | text => simp [faithful.others, kind, Item.of]
    | attributes id masked attributes style =>
        refine ⟨_, rfl, .revise id fun node => ?_⟩
        cases kind : node.kind with
        | document => simp [faithful.document node kind]
        | element => simp [faithful.others, kind, Item.of]
        | text => simp [faithful.others, kind, Item.of]
  obtain ⟨image, single, becomes⟩ := image
  rw [single, Tree.play, Tree.edit_image faithful.named becomes]
  cases tree.edit Node.id record.edit <;> rfl

/-- What a faithful view of a document allows, the document allows. -/
theorem played_of_shown {shown : Node → Item} (faithful : Faithful shown) {records : List Record}
    {tree : Tree Node} {last : Tree Item}
    (done : (tree.map shown).play Item.id
      (records.flatMap (Document.editsOf id shown content)) = some last) :
    ∃ result, tree.play Node.id (records.map Record.edit) = some result := by
  induction records generalizing tree with
  | nil => exact ⟨tree, rfl⟩
  | cons record records induction =>
      rw [List.flatMap_cons, Tree.play_append, play_shown faithful] at done
      obtain ⟨_, first, rest⟩ := Option.bind_eq_some_iff.mp done
      obtain ⟨changed, edited, rfl⟩ := Option.map_eq_some_iff.mp first
      obtain ⟨result, played⟩ := induction rest
      exact ⟨result, by rw [List.map_cons, Tree.play, edited]; exact played⟩

theorem play_editsOf (record : Record) (tree : Tree Node) :
    (tree.map Item.of).play Item.id (editsOf record) =
      (tree.edit Node.id record.edit).map (Tree.map Item.of) :=
  play_shown faithful_of record tree

theorem apply_of_edit {record : Record} {tree changed : Tree Node}
    (distinct : (Document.ids tree).Nodup) (done : tree.edit Node.id record.edit = some changed) :
    (ofTree tree).apply [record] = (ofTree changed, none) := by
  have named : ((tree.map Item.of).keys Item.id).Nodup := by
    rwa [← ids_rows none, ids_rows_of]
  have played : (tree.map Item.of).play Item.id (editsOf record) = some (changed.map Item.of) := by
    rw [play_editsOf, done]
    rfl
  obtain ⟨entries, applied, lists⟩ := applyRecord_of_edit named (lists_ofTree distinct) played
  have changedDistinct : (Document.ids changed).Nodup := (Tree.keys_edit distinct done).1
  obtain rfl := lists.unique (lists_ofTree changedDistinct)
  have root : changed.data.id = tree.data.id := Tree.root_of_edit done
  rw [apply, applyRecords_single, applied]
  simp [ofTree, root]

/-- The row of a tree's root. -/
def rowOf (parent : Option NodeId) (tree : Tree Node) : Row :=
  (tree.data.id, (Item.of tree.data).entry parent (tree.children.map (·.data.id)))

theorem mem_rows {outer : Option NodeId} {tree : Tree Node} {row : Row} :
    row ∈ rows outer (tree.map Item.of) ↔ row = rowOf outer tree ∨
      ∃ above, Tree.Inside above tree ∧
        ∃ child ∈ above.children, row = rowOf (some above.data.id) child := by
  induction tree using Tree.children_induction generalizing outer with
  | step data children induction =>
      have root : (Item.of data).entry outer ((children.map (Tree.map Item.of)).map (·.data.id)) =
          (Item.of data).entry outer (children.map (·.data.id)) := by
        simp [Item.of, Function.comp_def]
      rw [Tree.map_node, rows_node, List.mem_cons, List.mem_flatMap, root]
      apply or_congr Iff.rfl
      constructor
      · rintro ⟨image, member, inside⟩
        obtain ⟨child, here, rfl⟩ := List.mem_map.mp member
        rcases (induction child here).mp inside with rfl | ⟨above, within, below, listed, rfl⟩
        · exact ⟨.node data children, .itself _, child, here, rfl⟩
        · exact ⟨above, .inner here within, below, listed, rfl⟩
      · rintro ⟨above, within, child, listed, rfl⟩
        cases within with
        | itself =>
            exact ⟨_, List.mem_map_of_mem listed, (induction child listed).mpr (.inl rfl)⟩
        | inner member inside =>
            exact ⟨_, List.mem_map_of_mem member,
              (induction _ member).mpr (.inr ⟨above, inside, child, listed, rfl⟩)⟩

section Mirror

variable {tree : Tree Node}

theorem getElem?_ofTree (distinct : (Document.ids tree).Nodup) {id : NodeId} {entry : Entry} :
    (ofTree tree).entries[id]? = some entry ↔ (id, entry) = rowOf none tree ∨
      ∃ above, Tree.Inside above tree ∧
        ∃ child ∈ above.children, (id, entry) = rowOf (some above.data.id) child :=
  (lists_ofTree distinct id entry).trans mem_rows

theorem part_of_getElem? (distinct : (Document.ids tree).Nodup) {id : NodeId} {entry : Entry}
    (there : (ofTree tree).entries[id]? = some entry) :
    ∃ part parent, Tree.Inside part tree ∧ id = part.data.id ∧
      entry = (Item.of part.data).entry parent (part.children.map (·.data.id)) := by
  rcases (getElem?_ofTree distinct).mp there with root | ⟨above, inside, child, listed, row⟩
  · exact ⟨tree, none, .itself tree, Prod.ext_iff.mp root⟩
  · exact ⟨child, _, Tree.inside_iff.mpr (.inr ⟨above, inside, listed⟩), Prod.ext_iff.mp row⟩

theorem getElem?_of_inside (distinct : (Document.ids tree).Nodup) {part : Tree Node}
    (inside : Tree.Inside part tree) : ∃ parent, (ofTree tree).entries[part.data.id]? =
      some ((Item.of part.data).entry parent (part.children.map (·.data.id))) := by
  rcases Tree.inside_iff.mp inside with rfl | ⟨above, within, listed⟩
  · exact ⟨none, (getElem?_ofTree distinct).mpr (.inl rfl)⟩
  · exact ⟨_, (getElem?_ofTree distinct).mpr (.inr ⟨above, within, part, listed, rfl⟩)⟩

theorem mem_ofTree (distinct : (Document.ids tree).Nodup) {id : NodeId} :
    id ∈ (ofTree tree).entries ↔ id ∈ Document.ids tree := by
  rw [(lists_ofTree distinct).mem_iff, ids_rows_of]

/-- A replica of a document takes no record but those that fit the document. -/
theorem fits_of_accepted (distinct : (Document.ids tree).Nodup) {record : Record}
    (accepted : ((ofTree tree).apply [record]).2 = none) : record.Fits tree := by
  rw [apply, applyRecords_single] at accepted
  cases record with
  | add parent next subtree =>
      obtain ⟨⟨⟨entry, there, beside⟩, fresh⟩, once⟩ := applyAdd_accepted_iff.mp accepted
      obtain ⟨part, above, inside, rfl, rfl⟩ := part_of_getElem? distinct there
      exact .add inside beside once fun id member taken =>
        fresh id member ((mem_ofTree distinct).mpr taken)
  | remove parent id =>
      simp only [applyRecord, applyRemove] at accepted
      split at accepted
      case h_1 => contradiction
      case h_2 entry there =>
        split at accepted
        case isFalse => contradiction
        case isTrue under =>
          rcases (getElem?_ofTree distinct).mp there with root | ⟨above, inside, child, listed, row⟩
          · obtain ⟨-, rfl⟩ := Prod.ext_iff.mp root
            contradiction
          · obtain ⟨rfl, rfl⟩ := Prod.ext_iff.mp row
            obtain rfl := Option.some.inj under
            exact .remove inside listed
  | text id content masked =>
      simp only [applyRecord, applyText] at accepted
      split at accepted
      case h_1 => contradiction
      case h_2 entry there =>
        split at accepted
        case h_2 => contradiction
        case h_1 old isStyle kind =>
          obtain ⟨part, above, inside, rfl, rfl⟩ := part_of_getElem? distinct there
          exact .text inside.data_mem kind _ _
  | attributes id masked attributes style =>
      simp only [applyRecord, applyAttributes] at accepted
      split at accepted
      case h_1 => contradiction
      case h_2 entry there =>
        split at accepted
        case h_2 => contradiction
        case h_1 element kind =>
          obtain ⟨part, above, inside, rfl, rfl⟩ := part_of_getElem? distinct there
          exact .attributes inside.data_mem kind _ _ _

end Mirror

/-- One node lists another among its children. -/
def Child (replica : Replica) (parent child : NodeId) : Prop :=
  ∃ entry, replica.entries[parent]? = some entry ∧ child ∈ entry.children

/-- The links of a replica up to the parents and down to the children agree and make one tree. -/
structure Coherent (replica : Replica) : Prop where
  top : ∃ entry, replica.entries[replica.root]? = some entry ∧ entry.parent = none
  linked : ∀ parent child, replica.Child parent child ↔
    ∃ entry, replica.entries[child]? = some entry ∧ entry.parent = some parent
  once : ∀ (id : NodeId) (entry : Entry), replica.entries[id]? = some entry →
    entry.children.Nodup
  reached : ∀ id ∈ replica.entries, Relation.ReflTransGen replica.Child replica.root id

theorem coherent_ofTree {tree : Tree Node} (distinct : (Document.ids tree).Nodup) :
    (ofTree tree).Coherent := by
  have listed : ∀ {above child : Tree Node}, Tree.Inside above tree → child ∈ above.children →
      (ofTree tree).Child above.data.id child.data.id := by
    intro above child inside member
    obtain ⟨parent, there⟩ := getElem?_of_inside distinct inside
    exact ⟨_, there, List.mem_map_of_mem member⟩
  have down : ∀ {part whole : Tree Node}, Tree.Inside part whole → Tree.Inside whole tree →
      Relation.ReflTransGen (ofTree tree).Child whole.data.id part.data.id := by
    intro part whole inner outer
    induction inner with
    | itself => exact .refl
    | @inner child data children member inside induction =>
        have within := (Tree.Inside.inner member (.itself child)).trans outer
        exact .head (listed outer member) (induction within)
  constructor
  case top => exact ⟨_, (getElem?_ofTree distinct).mpr (.inl rfl), rfl⟩
  case linked =>
    intro parent id
    constructor
    · rintro ⟨entry, there, member⟩
      obtain ⟨above, outer, inside, rfl, rfl⟩ := part_of_getElem? distinct there
      obtain ⟨child, below, rfl⟩ := List.mem_map.mp member
      exact ⟨_, (getElem?_ofTree distinct).mpr (.inr ⟨above, inside, child, below, rfl⟩), rfl⟩
    · rintro ⟨entry, there, under⟩
      rcases (getElem?_ofTree distinct).mp there with root | ⟨above, inside, child, below, row⟩
      · obtain ⟨-, rfl⟩ := Prod.ext_iff.mp root
        contradiction
      · obtain ⟨rfl, rfl⟩ := Prod.ext_iff.mp row
        obtain rfl := Option.some.inj under
        exact listed inside below
  case once =>
    intro id entry there
    obtain ⟨part, outer, inside, -, rfl⟩ := part_of_getElem? distinct there
    exact Tree.child_keys_nodup ((Document.ids_inside inside).nodup distinct)
  case reached =>
    intro id member
    rw [mem_ofTree distinct] at member
    obtain ⟨node, inside, rfl⟩ := List.mem_map.mp member
    obtain ⟨part, within, rfl⟩ := Tree.inside_of_mem inside
    exact down within (.itself tree)

theorem apply_cons (replica : Replica) (record : Record) (records : List Record) :
    replica.apply (record :: records) =
      match replica.apply [record] with
      | (changed, none) => changed.apply records
      | refused => refused := by
  simp only [apply, applyRecords_single]
  rw [applyRecords]
  cases applyRecord record replica.entries with
  | mk entries refusal => cases refusal <;> rfl

theorem apply_of_play {records : List Record} {tree result : Tree Node}
    (distinct : (Document.ids tree).Nodup)
    (done : tree.play Node.id (records.map Record.edit) = some result) :
    (ofTree tree).apply records = (ofTree result, none) := by
  induction records generalizing tree with
  | nil =>
      cases done
      rfl
  | cons record records induction =>
      obtain ⟨changed, first, rest⟩ := Option.bind_eq_some_iff.mp done
      rw [apply_cons, apply_of_edit distinct first]
      exact induction (Tree.keys_edit distinct first).1 rest

/-- The replica of a document takes a record exactly when the record fits the document, and is the
replica of the edited document then. Whatever it has taken, it is the replica of a document. -/
theorem apply_follows_edit {tree : Tree Node} (distinct : (Document.ids tree).Nodup) :
    (∀ record : Record, ((ofTree tree).apply [record]).2 = none ↔ record.Fits tree) ∧
      (∀ record : Record, record.Fits tree →
        ∃ changed, tree.edit Node.id record.edit = some changed ∧
          (ofTree tree).apply [record] = (ofTree changed, none)) ∧
      ∀ records : List Record, ((ofTree tree).apply records).2 = none →
        ∃ changed, tree.play Node.id (records.map Record.edit) = some changed ∧
          (Document.ids changed).Nodup ∧
          (ofTree tree).apply records = (ofTree changed, none) ∧ (ofTree changed).Coherent := by
  have taken : ∀ {tree : Tree Node}, (Document.ids tree).Nodup → ∀ record : Record,
      record.Fits tree → ∃ changed, tree.edit Node.id record.edit = some changed ∧
        (ofTree tree).apply [record] = (ofTree changed, none) := by
    intro tree distinct record fits
    obtain ⟨changed, done⟩ := Record.edit_of_fits distinct fits
    exact ⟨changed, done, apply_of_edit distinct done⟩
  refine ⟨?accepted, taken distinct, ?run⟩
  case accepted =>
    refine fun record => ⟨fits_of_accepted distinct, fun fits => ?_⟩
    obtain ⟨changed, -, applied⟩ := taken distinct record fits
    rw [applied]
  case run =>
    intro records accepted
    induction records generalizing tree with
    | nil => exact ⟨tree, rfl, distinct, rfl, coherent_ofTree distinct⟩
    | cons record records induction =>
        have first : ((ofTree tree).apply [record]).2 = none := by
          rw [apply_cons] at accepted
          split at accepted
          case h_1 applied => rw [applied]
          case h_2 => exact accepted
        obtain ⟨changed, done, applied⟩ := taken distinct record (fits_of_accepted distinct first)
        rw [apply_cons, applied] at accepted
        obtain ⟨final, played, rest⟩ := induction (Tree.keys_edit distinct done).1 accepted
        refine ⟨final, ?_, ?_⟩
        · rw [List.map_cons, Tree.play, done]
          exact played
        · rw [apply_cons, applied]
          exact rest

/-- An element that the root has is taken out, with all below it. -/
theorem apply_follows_edit_removed :
    (Record.remove ⟨1⟩ ⟨2⟩).Fits (Document.nested ⟨2⟩ ⟨3⟩ "a") ∧
      ∃ changed, (Document.nested ⟨2⟩ ⟨3⟩ "a").edit Node.id (Record.remove ⟨1⟩ ⟨2⟩).edit =
          some changed ∧
        (ofTree (Document.nested ⟨2⟩ ⟨3⟩ "a")).apply [.remove ⟨1⟩ ⟨2⟩] = (ofTree changed, none) := by
  have fits : (Record.remove ⟨1⟩ ⟨2⟩).Fits (Document.nested ⟨2⟩ ⟨3⟩ "a") :=
    .remove (.itself (Document.nested ⟨2⟩ ⟨3⟩ "a"))
      (List.mem_cons_self : _ ∈ (Document.nested ⟨2⟩ ⟨3⟩ "a").children)
  have distinct : (Document.ids (Document.nested ⟨2⟩ ⟨3⟩ "a")).Nodup := by decide
  exact ⟨fits, (apply_follows_edit distinct).2.1 _ fits⟩

end Replica

end SessionReplay
