import SessionReplay.Proofs.Wire.Playing
import SessionReplay.Proofs.Wire.Wrapping

/-!
Increments against snapshots. A snapshot puts an element around each text directly below the
document. An increment names the text itself, and brings it as it is. So an increment leads a
player from one snapshot to the next exactly when it leaves these texts where they are, brings
none, and puts nothing in front of one.
-/

namespace SessionReplay

/-- The texts directly below the document. -/
def Document.bareTexts (tree : Tree Node) : List NodeId :=
  (tree.children.filter (·.data.kind.content?.isSome)).map (·.data.id)

namespace Wire

namespace Encoder

open SessionReplay.Document (editsOf)

variable (encoder : Encoder)

theorem textId?_item (restyle : Style → Style) (node : SessionReplay.Node) :
    (encoder.item restyle node).textId? =
      if node.kind.content?.isSome then some node.id else none := by
  unfold item
  cases node.kind <;> rfl

theorem bare_shown (restyle : Style → Style) (tree : Tree SessionReplay.Node) :
    bare (tree.map (encoder.item restyle)) = Document.bareTexts tree := by
  obtain ⟨node, children⟩ := tree
  simp only [bare, Document.bareTexts, Tree.map_node, Tree.children, List.filterMap_map,
    Function.comp_def, Tree.data_map, textId?_item]
  induction children with
  | nil => rfl
  | cons child children induction =>
      rw [List.filterMap_cons, List.filter_cons, induction]
      by_cases text : child.data.kind.content?.isSome <;> simp [text]

theorem numbered_shown (restyle : Style → Style) (tree : Tree SessionReplay.Node) :
    Numbered (tree.map (encoder.item restyle)) := by
  intro key member
  rw [Document.keys_map (encoder.item restyle) (encoder.id_item restyle)] at member
  obtain ⟨id, -, rfl⟩ := List.mem_map.mp member
  exact ⟨id, rfl⟩

theorem proper_shown {restyle : Style → Style} {tree : Tree SessionReplay.Node}
    (distinct : (Document.ids tree).Nodup) : Proper (tree.map (encoder.item restyle)) where
  distinct := by
    rw [Document.keys_map (encoder.item restyle) (encoder.id_item restyle)]
    exact distinct.map fun _ _ same => Id.node.inj same
  numbered := encoder.numbered_shown restyle tree

/-- A snapshot is read as what is shown, with an element around each text directly below the
document. -/
theorem read_encodeTree_wrap {tree : Tree SessionReplay.Node} (sketch : Sketch tree)
    (room : tree.height < encoder.maxDepth.toNat) :
    read (encoder.encodeTree tree) = wrap (tree.map (encoder.item Style.reread)) := by
  obtain ⟨node, children⟩ := tree
  have top : node.kind = .document := sketch.top
  have deep : encoder.maxDepth ≠ 0 := by
    rintro zero
    rw [zero] at room
    exact absurd room (Nat.not_lt_zero _)
  have inside : children.map (read ∘ encoder.encodeTopChild) =
      children.map (shelter ∘ Tree.map (encoder.item Style.reread)) := by
    apply List.map_congr_left
    intro child member
    have drawn := sketch.below child member
    have lower : child.height < (Tree.node node children).height := Tree.height_child member
    have kind := encoder.textId?_item Style.reread child.data
    rw [← Tree.data_map (encoder.item Style.reread) child] at kind
    simp only [Function.comp_apply, encodeTopChild]
    split
    case h_1 content isStyle shape =>
      rw [shape] at kind
      rw [shelter_text kind, ← encoder.read_encodeNode 2 drawn (by omega)]
      simp [read, readAll, writtenStyle]
    case h_2 other =>
      have element : (child.map (encoder.item Style.reread)).data.textId? = none := by
        rw [kind]
        cases shape : child.data.kind with
        | text content isStyle => exact absurd shape (other content isStyle)
        | document => rfl
        | element element => rfl
      rw [shelter_other element, encoder.read_encodeNode 1 drawn (by omega)]
  simp only [encodeTree, Tree.data, Tree.children, top, if_neg deep, read, readAll_eq_map,
    List.map_map, inside, Tree.map_node, item, wrap]

end Encoder

end Wire

/-- The changes leave the texts directly below the document alone: none of them is taken away, none
comes, and nothing is put in front of one. -/
structure Document.Undisturbed (previous current : Tree Node) (records : List Record) : Prop where
  kept : ∀ id, .remove current.data.id id ∈ records → id ∉ bareTexts previous
  brought : ∀ next subtree, .add current.data.id next subtree ∈ records →
    subtree.data.kind.content? = none ∧ ∀ id, next = some id → id ∉ bareTexts current

namespace Wire.Encoder

open SessionReplay.Document (editsOf)

variable (encoder : Encoder) {previous current : Tree SessionReplay.Node} {records : List Record}

/-- What a player is shown at style-map level: the document of a snapshot before its styles are
written as texts. -/
def shown (tree : Tree SessionReplay.Node) : Page := wrap (tree.map (encoder.item id))

theorem top_shown (tree : Tree SessionReplay.Node) :
    (encoder.shown tree).data.id = .node tree.data.id := by
  change (tree.map (encoder.item id)).data.id = _
  rw [Tree.data_map, id_item]

theorem steady_revisions {record : Record} {change : Edit Id Item}
    (made : change ∈ encoder.revisions record) :
    ∃ target revised, change = .revise (.node target) revised ∧ Steady revised := by
  cases record with
  | remove parent id => exact absurd made List.not_mem_nil
  | add parent next subtree => exact absurd made List.not_mem_nil
  | text id content masked => exact ⟨id, _, List.mem_singleton.mp made, steady_setText _⟩
  | attributes id masked attributes style =>
      simp only [revisions, mutationOf, List.foldr_cons, List.foldr_nil, encodeRecord] at made
      split at made
      · exact absurd made List.not_mem_nil
      · exact ⟨id, _, List.mem_singleton.mp made, steady_setAttributes _⟩

theorem growing_editsOf {record : Record} (stays : Document.act record ≠ .remove)
    {change : Edit Id Item}
    (made : change ∈ editsOf Id.node (encoder.item id) encoder.revisions record) :
    Growing change := by
  cases record with
  | remove parent id => exact absurd rfl stays
  | add parent next subtree =>
      rw [List.mem_singleton.mp made]
      exact .add parent _ _
  | text id content masked =>
      obtain ⟨target, revised, rfl, steady⟩ := encoder.steady_revisions made
      exact .revise target steady
  | attributes id masked attributes style =>
      obtain ⟨target, revised, rfl, steady⟩ := encoder.steady_revisions made
      exact .revise target steady

theorem mild_editsOf {record : Record} {texts : List NodeId} {root : NodeId}
    (removed : ∀ id, record = .remove root id → id ∉ texts)
    (added : ∀ next subtree, record = .add root next subtree →
      subtree.data.kind.content? = none ∧ ∀ id, next = some id → id ∉ texts)
    {change : Edit Id Item}
    (made : change ∈ editsOf Id.node (encoder.item id) encoder.revisions record) :
    Mild texts (.node root) change := by
  cases record with
  | remove parent id =>
      rw [List.mem_singleton.mp made]
      exact .remove fun same => removed id (by rw [Id.node.inj same])
  | add parent next subtree =>
      rw [List.mem_singleton.mp made]
      refine .add (encoder.numbered_shown id subtree) fun same => ?_
      obtain ⟨element, others⟩ := added next subtree (by rw [Id.node.inj same])
      refine ⟨?_, others⟩
      rw [Tree.data_map, textId?_item, element]
      rfl
  | text id content masked =>
      obtain ⟨target, revised, rfl, steady⟩ := encoder.steady_revisions made
      exact .revise steady
  | attributes id masked attributes style =>
      obtain ⟨target, revised, rfl, steady⟩ := encoder.steady_revisions made
      exact .revise steady

section Parts

variable {removes others : List Record}
variable (removing : ∀ record ∈ removes, Document.act record = .remove)
variable (staying : ∀ record ∈ others, Document.act record ≠ .remove)

include removing in
theorem removal_editsOf {change : Edit Id Item}
    (made : change ∈ removes.flatMap (editsOf Id.node (encoder.item id) encoder.revisions)) :
    ∃ parent target : NodeId, change = .remove (.node parent) (.node target) := by
  obtain ⟨record, member, inner⟩ := List.mem_flatMap.mp made
  cases record with
  | remove parent id => exact ⟨parent, id, List.mem_singleton.mp inner⟩
  | add parent next subtree => exact absurd (removing _ member) nofun
  | text id content masked => exact absurd (removing _ member) nofun
  | attributes id masked attributes style => exact absurd (removing _ member) nofun

include staying in
theorem growing_flatMap {change : Edit Id Item}
    (made : change ∈ others.flatMap (editsOf Id.node (encoder.item id) encoder.revisions)) :
    Growing change := by
  obtain ⟨record, member, inner⟩ := List.mem_flatMap.mp made
  exact encoder.growing_editsOf (staying record member) inner

variable (same : previous.data.id = current.data.id)
variable (previousDistinct : (Document.ids previous).Nodup)

include removing staying same previousDistinct

/-- Changes that reach the next snapshot leave the texts directly below the document alone: no edit
can name such a text, since a snapshot has it inside an element. -/
theorem undisturbed_of_play (currentDistinct : (Document.ids current).Nodup) {between : Page}
    (first : (encoder.shown previous).play Item.id
      (removes.flatMap (editsOf Id.node (encoder.item id) encoder.revisions)) = some between)
    (last : between.play Item.id
      (others.flatMap (editsOf Id.node (encoder.item id) encoder.revisions)) =
        some (encoder.shown current)) :
    Document.Undisturbed previous current (removes ++ others) := by
  have top : (encoder.shown previous).data.id = .node current.data.id := by
    rw [← same]
    exact encoder.top_shown previous
  constructor
  case kept =>
    intro gone member text
    rcases List.mem_append.mp member with early | late
    · have child := removed_mem_marks (fun _ => encoder.removal_editsOf removing) first top
        (List.mem_flatMap.mpr ⟨_, early, List.mem_singleton_self _⟩)
      rw [← encoder.bare_shown id] at text
      exact (encoder.proper_shown previousDistinct).not_mem_marks_wrap text child
    · exact absurd rfl (staying _ late)
  case brought =>
    intro next subtree member
    rcases List.mem_append.mp member with early | late
    · exact absurd (removing _ early) nofun
    · have betweenTop := (Tree.root_of_play first).trans top
      obtain ⟨child, sibling⟩ := added_mem_marks (fun _ => encoder.growing_flatMap staying) last
        betweenTop (List.mem_flatMap.mpr ⟨_, late, List.mem_singleton_self _⟩)
      constructor
      · have kind := textId?_of_mem_marks_wrap child
        rw [Tree.data_map, textId?_item] at kind
        simpa using kind
      · rintro before rfl text
        rw [← encoder.bare_shown id] at text
        exact (encoder.proper_shown currentDistinct).not_mem_marks_wrap text (sibling _ rfl)

/-- Changes that leave the texts directly below the document alone lead from snapshot to snapshot,
as they lead from document to document. -/
theorem play_of_undisturbed {middle : Page}
    (undisturbed : Document.Undisturbed previous current (removes ++ others))
    (first : (previous.map (encoder.item id)).play Item.id
      (removes.flatMap (editsOf Id.node (encoder.item id) encoder.revisions)) = some middle)
    (last : middle.play Item.id
      (others.flatMap (editsOf Id.node (encoder.item id) encoder.revisions)) =
        some (current.map (encoder.item id))) :
    ((encoder.shown previous).play Item.id
      (removes.flatMap (editsOf Id.node (encoder.item id) encoder.revisions))).bind
        (·.play Item.id (others.flatMap (editsOf Id.node (encoder.item id) encoder.revisions))) =
      some (encoder.shown current) := by
  have top : (previous.map (encoder.item id)).data.id = .node current.data.id := by
    rw [← same]
    exact encoder.top_shown previous
  have covers : ∀ tree : Tree SessionReplay.Node,
      ∀ text ∈ bare (tree.map (encoder.item id)), text ∈ Document.bareTexts tree := by
    intro tree
    rw [encoder.bare_shown]
    exact fun _ => id
  have early : ∀ change ∈ removes.flatMap (editsOf Id.node (encoder.item id) encoder.revisions),
      Mild (Document.bareTexts previous) (.node current.data.id) change := by
    intro change made
    obtain ⟨record, member, inner⟩ := List.mem_flatMap.mp made
    refine encoder.mild_editsOf ?_ ?_ inner
    · rintro gone rfl
      exact undisturbed.kept gone (List.mem_append_left _ member)
    · rintro next subtree rfl
      exact absurd (removing _ member) nofun
  have late : ∀ change ∈ others.flatMap (editsOf Id.node (encoder.item id) encoder.revisions),
      Mild (Document.bareTexts current) (.node current.data.id) change := by
    intro change made
    obtain ⟨record, member, inner⟩ := List.mem_flatMap.mp made
    refine encoder.mild_editsOf ?_ ?_ inner
    · rintro gone rfl
      exact absurd rfl (staying _ member)
    · rintro next subtree rfl
      exact undisturbed.brought next subtree (List.mem_append_right _ member)
  rw [← top] at early
  rw [← (Tree.root_of_play first).trans top] at late
  obtain ⟨removed, proper⟩ := wrap_play_removals _ (encoder.proper_shown previousDistinct)
    (fun _ => encoder.removal_editsOf removing) early (covers previous) first
  rw [shown, removed]
  exact wrap_play_growing _ proper (fun _ => encoder.growing_flatMap staying) late
    (covers current) last

end Parts

/-- Played on what is shown of a document, the changes lead to what is shown of the next one exactly
when they leave the texts directly below the document alone. -/
theorem play_wrap_iff (compared : Document.changes previous current = .ok records)
    (previousDistinct : (Document.ids previous).Nodup)
    (currentDistinct : (Document.ids current).Nodup) (previousSketch : Sketch previous)
    (sketch : Sketch current) :
    (encoder.shown previous).play Item.id
        (records.flatMap (editsOf Id.node (encoder.item id) encoder.revisions)) =
      some (encoder.shown current) ↔ Document.Undisturbed previous current records := by
  obtain ⟨same, -, listed⟩ := Document.changes_ok compared
  have whole := encoder.play_shown compared previousDistinct currentDistinct previousSketch sketch
  -- The removals come first. What follows only adds and revises.
  obtain ⟨removes, others, split, removing, staying⟩ :=
    (Document.sorted_changesAt previous current).removals_first
  obtain rfl : removes ++ others = records := split.symm.trans listed
  rw [List.flatMap_append, Tree.play_append] at whole ⊢
  constructor
  · intro reached
    obtain ⟨between, first, last⟩ := Option.bind_eq_some_iff.mp reached
    exact encoder.undisturbed_of_play removing staying same previousDistinct currentDistinct first
      last
  · intro undisturbed
    obtain ⟨middle, first, last⟩ := Option.bind_eq_some_iff.mp whole
    exact encoder.play_of_undisturbed removing staying same previousDistinct undisturbed first last

/-- An increment and the two snapshots agree exactly when the changes leave the texts directly below
the document alone. Nothing is asked of the styles as long as they are compared as properties; as
texts they are the same when they are legible. -/
theorem increment_reaches_snapshot_iff
    (compared : Document.changes previous current = .ok records)
    (previousDistinct : (Document.ids previous).Nodup)
    (currentDistinct : (Document.ids current).Nodup) (previousSketch : Sketch previous)
    (sketch : Sketch current) (previousRoom : previous.height < encoder.maxDepth.toNat)
    (room : current.height < encoder.maxDepth.toNat) :
    ((encoder.shown previous).play Item.id
        (records.flatMap (editsOf Id.node (encoder.item id) encoder.revisions)) =
      some (encoder.shown current) ↔ Document.Undisturbed previous current records) ∧
    ((∀ node ∈ previous.preorder, node.toFace.Legible) →
      (∀ node ∈ current.preorder, node.toFace.Legible) →
      ((read (encoder.encodeTree previous)).play Item.id (encoder.mutationOf records).edits =
        some (read (encoder.encodeTree current)) ↔
          Document.Undisturbed previous current records)) := by
  have reached := encoder.play_wrap_iff compared previousDistinct currentDistinct previousSketch
    sketch
  refine ⟨reached, fun previousLegible legible => ?_⟩
  have snapshot : ∀ tree : Tree SessionReplay.Node, Sketch tree →
      tree.height < encoder.maxDepth.toNat → (∀ node ∈ tree.preorder, node.toFace.Legible) →
      read (encoder.encodeTree tree) = encoder.shown tree := by
    intro tree sketch room legible
    rw [encoder.read_encodeTree_wrap sketch room, shown]
    exact congrArg wrap (Tree.map_congr fun node member =>
      encoder.item_reread (legible node member))
  rw [snapshot previous previousSketch previousRoom previousLegible,
    snapshot current sketch room legible,
    encoder.edits_of_changes compared sketch (Nat.le_of_lt room)]
  · exact reached
  · intro parent next subtree member node inside
    obtain ⟨child, listed, below⟩ := Document.inside_of_added compared member
    exact legible node ((Tree.Inside.of_child listed below).preorder_sublist.subset inside)

end Wire.Encoder

/-- A document with these children. -/
def Document.holding (children : List (Tree Node)) : Tree Node :=
  .node { id := ⟨1⟩, kind := .document } children

def Document.greeting : Tree Node := .node { id := ⟨2⟩, kind := .text "hi" false } []

/-- A text that comes directly below the document is not what the next snapshot has there. -/
theorem Wire.Encoder.increment_reaches_snapshot_iff_greeting :
    let encoder : Wire.Encoder := {}
    let blank := Document.holding []
    let greeted := Document.holding [Document.greeting]
    Document.changes blank greeted = .ok [.add ⟨1⟩ none Document.greeting] ∧
      (Wire.read (encoder.encodeTree blank)).play Wire.Item.id
          (encoder.mutationOf [.add ⟨1⟩ none Document.greeting]).edits ≠
        some (Wire.read (encoder.encodeTree greeted)) := by
  refine ⟨rfl, fun reached => ?_⟩
  have blankSketch : Sketch (Document.holding []) := ⟨rfl, fun _ => nofun⟩
  have greetedSketch : Sketch (Document.holding [Document.greeting]) := by
    refine ⟨rfl, fun child member => ?_⟩
    rw [List.mem_singleton.mp member, Document.greeting, Tree.map_node]
    exact .text rfl
  have blankLegible : ∀ node ∈ (Document.holding []).preorder, node.toFace.Legible := by
    intro node member element kind
    rw [List.mem_singleton.mp member] at kind
    contradiction
  have greetedLegible : ∀ node ∈ (Document.holding [Document.greeting]).preorder,
      node.toFace.Legible := by
    intro node member element kind
    rcases List.mem_cons.mp member with rfl | text
    · contradiction
    · rw [List.mem_singleton.mp text] at kind
      contradiction
  have undisturbed := ((increment_reaches_snapshot_iff {} rfl (by decide) (by decide) blankSketch
    greetedSketch (by decide) (by decide)).2 blankLegible greetedLegible).mp reached
  exact nomatch (undisturbed.brought none _ (List.mem_singleton_self _)).1

end SessionReplay
