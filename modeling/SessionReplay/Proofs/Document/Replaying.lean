import SessionReplay.Document.Replica
import SessionReplay.Proofs.Document.Transition

/-!
A replica follows the edits of a tree. It is described by its rows: one for each node of the tree,
with the node's parent and the roots of its children. The main statement is that the changes
between two documents take the replica of the first to the replica of the second.
-/

namespace SessionReplay

namespace Replica

/-- What a replica keeps of a node. -/
structure Item where
  id : NodeId
  kind : Kind
  masked : Bool
deriving DecidableEq

def Item.of (node : Node) : Item := ⟨node.id, node.kind, node.masked⟩

def Item.entry (item : Item) (parent : Option NodeId) (children : List NodeId) : Entry :=
  ⟨item.kind, item.masked, parent, children⟩

abbrev Row := NodeId × Entry

mutual

def rows (parent : Option NodeId) : Tree Item → List Row
  | .node item children =>
      (item.id, item.entry parent (children.map (·.data.id))) :: rowsAll (some item.id) children

def rowsAll (parent : Option NodeId) : List (Tree Item) → List Row
  | [] => []
  | tree :: trees => rows parent tree ++ rowsAll parent trees

end

theorem rows_node (parent : Option NodeId) (item : Item) (children : List (Tree Item)) :
    rows parent (.node item children) =
      (item.id, item.entry parent (children.map (·.data.id))) ::
        children.flatMap (rows (some item.id)) := by
  have all : ∀ trees, rowsAll (some item.id) trees = trees.flatMap (rows (some item.id)) := by
    intro trees
    induction trees with
    | nil => rfl
    | cons tree trees induction => rw [rowsAll, induction, List.flatMap_cons]
  rw [rows, all]

theorem ids_rows (parent : Option NodeId) (tree : Tree Item) :
    (rows parent tree).map Prod.fst = tree.keys Item.id := by
  induction tree using Tree.children_induction generalizing parent with
  | step item children induction =>
      rw [rows_node, Tree.keys_node, List.map_cons, List.map_flatMap]
      exact congrArg _ (List.flatMap_congr fun child member => induction child member _)

/-- The rows around a subtree depend on its root alone. -/
theorem rows_plug (frames : List (Tree.Frame Item)) (outer : Option NodeId) (root : NodeId) :
    ∃ parent before after, ∀ tree : Tree Item, tree.data.id = root →
      rows outer (Tree.plug frames tree) = before ++ rows parent tree ++ after := by
  induction frames generalizing outer with
  | nil => exact ⟨outer, [], [], fun tree _ => by simp [Tree.plug]⟩
  | cons frame frames induction =>
      obtain ⟨parent, before, after, inner⟩ := induction (some frame.data.id)
      have top : ∀ tree : Tree Item, tree.data.id = root → (Tree.plug frames tree).data.id =
          (frames.head?.map (·.data.id)).getD root := by
        intro tree same
        cases frames with
        | nil => simpa [Tree.plug] using same
        | cons frame frames => rfl
      refine ⟨parent, (frame.data.id, frame.data.entry outer
        (frame.before.map (·.data.id) ++ (frames.head?.map (·.data.id)).getD root ::
          frame.after.map (·.data.id))) ::
        (frame.before.flatMap (rows (some frame.data.id)) ++ before),
        after ++ frame.after.flatMap (rows (some frame.data.id)), ?_⟩
      intro tree same
      rw [Tree.plug, rows_node, List.map_append, List.map_cons, top tree same, List.flatMap_append,
        List.flatMap_cons, inner tree same]
      simp

/-- The entries are these rows, in whatever order. -/
def Lists (entries : Entries) (rows : List Row) : Prop :=
  ∀ id entry, entries[id]? = some entry ↔ (id, entry) ∈ rows

theorem lists_empty : Lists ∅ [] := by
  intro id entry
  simp

theorem Lists.unique {first second : Entries} {rows : List Row} (one : Lists first rows)
    (other : Lists second rows) : first = second := by
  apply Std.ExtTreeMap.ext_getElem?
  intro id
  apply Option.ext
  intro entry
  exact (one id entry).trans (other id entry).symm

theorem Lists.getElem? {entries : Entries} {rows : List Row} (lists : Lists entries rows)
    {id : NodeId} {entry : Entry} (member : (id, entry) ∈ rows) : entries[id]? = some entry :=
  (lists id entry).mpr member

theorem Lists.mem_iff {entries : Entries} {rows : List Row} (lists : Lists entries rows)
    {id : NodeId} : id ∈ entries ↔ id ∈ rows.map Prod.fst := by
  rw [← Std.ExtTreeMap.isSome_getElem?_iff_mem, Option.isSome_iff_exists]
  simp [lists id]

theorem Lists.perm {entries : Entries} {rows others : List Row} (lists : Lists entries rows)
    (same : rows.Perm others) : Lists entries others := by
  intro id entry
  rw [lists id entry, same.mem_iff]

theorem Lists.insert {entries : Entries} {rows : List Row} (lists : Lists entries rows)
    {id : NodeId} (fresh : id ∉ rows.map Prod.fst) (entry : Entry) :
    Lists (entries.insert id entry) ((id, entry) :: rows) := by
  intro other value
  rw [Std.ExtTreeMap.getElem?_insert, List.mem_cons]
  by_cases here : id = other
  · subst here
    have absent : (id, value) ∉ rows := fun member => fresh (List.mem_map_of_mem member)
    simp [absent, eq_comm]
  · simp [here, Ne.symm here, lists other value]

theorem Lists.erase {entries : Entries} {rows : List Row} {id : NodeId} {entry : Entry}
    (lists : Lists entries ((id, entry) :: rows)) (fresh : id ∉ rows.map Prod.fst) :
    Lists (entries.erase id) rows := by
  intro other value
  rw [Std.ExtTreeMap.getElem?_erase]
  by_cases here : id = other
  · subst here
    have absent : (id, value) ∉ rows := fun member => fresh (List.mem_map_of_mem member)
    simp [absent]
  · simp [here, Ne.symm here, lists other value]

/-- The row of one node is replaced. -/
theorem Lists.replace {entries : Entries} {before after : List Row} {id : NodeId} {old : Entry}
    (lists : Lists entries (before ++ (id, old) :: after))
    (distinct : ((before ++ (id, old) :: after).map Prod.fst).Nodup) (new : Entry) :
    Lists (entries.insert id new) (before ++ (id, new) :: after) := by
  have middle : (before ++ (id, old) :: after).Perm ((id, old) :: (before ++ after)) :=
    List.perm_middle
  have apart := (middle.map Prod.fst).nodup_iff.mp distinct
  have fresh : id ∉ (before ++ after).map Prod.fst := (List.nodup_cons.mp apart).1
  have erased := (lists.perm middle).erase fresh
  have inserted := (erased.insert fresh new).perm List.perm_middle.symm
  have same : (entries.erase id).insert id new = entries.insert id new := by
    apply Std.ExtTreeMap.ext_getElem?
    intro other
    by_cases here : id = other
    · simp [here]
    · simp [Std.ExtTreeMap.getElem?_insert, Std.ExtTreeMap.getElem?_erase, here]
  rwa [same] at inserted

theorem modify_eq_insert {entries : Entries} {id : NodeId} {old : Entry}
    (there : entries[id]? = some old) (change : Entry → Entry) :
    entries.modify id change = entries.insert id (change old) := by
  apply Std.ExtTreeMap.ext_getElem?
  intro other
  rw [Std.ExtTreeMap.getElem?_modify, Std.ExtTreeMap.getElem?_insert]
  by_cases here : id = other
  · subst here
    simp [there]
  · simp [here]

theorem lists_dropAll {entries : Entries} (pending : List (Option NodeId × Tree Item))
    {rest : List Row}
    (lists : Lists entries ((pending.flatMap fun item => rows item.1 item.2) ++ rest))
    (distinct : (((pending.flatMap fun item => rows item.1 item.2) ++ rest).map Prod.fst).Nodup) :
    Lists (dropAll entries (pending.map (·.2.data.id))) rest := by
  generalize named : pending.map (·.2.data.id) = ids
  induction entries, ids using dropAll.induct generalizing pending with
  | case1 entries =>
      obtain rfl := List.map_eq_nil_iff.mp named
      rw [dropAll]
      exact lists
  | case2 entries id ids present induction =>
      obtain ⟨⟨parent, item, children⟩, others, rfl, root, rfl⟩ :=
        List.map_eq_cons_iff.mp named
      obtain rfl : item.id = id := root
      rw [List.flatMap_cons, rows_node, List.cons_append, List.cons_append] at lists distinct
      obtain ⟨fresh, below⟩ := List.nodup_cons.mp distinct
      have found := lists.getElem? List.mem_cons_self
      have offspring : entries[item.id].children = children.map (·.data.id) := by
        rw [Std.ExtTreeMap.getElem?_eq_some_getElem present] at found
        rw [Option.some.inj found]
        rfl
      have regrouped : ((children.map fun child => (some item.id, child)) ++ others).flatMap
          (fun item => rows item.1 item.2) = children.flatMap (rows (some item.id)) ++
            others.flatMap fun item => rows item.1 item.2 := by
        rw [List.flatMap_append, List.flatMap_map]
      rw [dropAll, dif_pos present]
      apply induction
      · rw [regrouped]
        exact lists.erase fresh
      · rw [regrouped]
        exact below
      · rw [List.map_append, List.map_map, offspring]
        rfl
  | case3 entries id ids absent induction =>
      obtain ⟨⟨parent, item, children⟩, others, rfl, root, rfl⟩ :=
        List.map_eq_cons_iff.mp named
      obtain rfl : item.id = id := root
      have listed : item.id ∈ (((parent, Tree.node item children) :: others).flatMap
          (fun item => rows item.1 item.2) ++ rest).map Prod.fst := by simp [rows_node]
      exact absurd (lists.mem_iff.mpr listed) absent

theorem ids_rows_of (parent : Option NodeId) (tree : Tree Node) :
    (rows parent (tree.map Item.of)).map Prod.fst = Document.ids tree := by
  have labelled : ∀ node : Node, (Item.of node).id = id node.id := fun _ => rfl
  rw [ids_rows, Document.keys_map Item.of labelled, List.map_id]

mutual

theorem lists_insert : (parent : Option NodeId) → (tree : Tree Node) → {entries : Entries} →
    {others : List Row} → Lists entries others →
    (Document.ids tree ++ others.map Prod.fst).Nodup →
    ∃ inserted, insert parent tree entries = (inserted, none) ∧
      Lists inserted (rows parent (tree.map Item.of) ++ others)
  | parent, .node data children, entries, others, lists, distinct => by
      rw [Document.ids_node, List.cons_append] at distinct
      obtain ⟨fresh, below⟩ := List.nodup_cons.mp distinct
      have absent : data.id ∉ others.map Prod.fst :=
        fun member => fresh (List.mem_append_right _ member)
      let entry := (Item.of data).entry parent ((children.map (Tree.map Item.of)).map (·.data.id))
      have first := lists.insert absent entry
      have regrouped : (children.flatMap Document.ids ++
          ((data.id, entry) :: others).map Prod.fst).Nodup :=
        List.perm_middle.nodup_iff.mpr distinct
      obtain ⟨inserted, done, rest⟩ := lists_insertAll data.id children first regrouped
      refine ⟨inserted, ?_, ?_⟩
      · have missing : ¬entries.contains data.id := by
          rw [Std.ExtTreeMap.contains_iff_mem, lists.mem_iff]
          exact absent
        rw [insert, if_neg missing, ← done]
        simp [entry, Item.entry, Item.of, Function.comp_def]
      · rw [Tree.map_node, rows_node]
        exact rest.perm List.perm_middle

theorem lists_insertAll : (parent : NodeId) → (trees : List (Tree Node)) → {entries : Entries} →
    {others : List Row} → Lists entries others →
    (trees.flatMap Document.ids ++ others.map Prod.fst).Nodup →
    ∃ inserted, insertAll parent trees entries = (inserted, none) ∧
      Lists inserted ((trees.map (Tree.map Item.of)).flatMap (rows (some parent)) ++ others)
  | _, [], entries, others, lists, _ => ⟨entries, rfl, by simpa using lists⟩
  | parent, tree :: trees, entries, others, lists, distinct => by
      have regrouped : (trees.flatMap Document.ids ++ (Document.ids tree ++
          others.map Prod.fst)).Nodup := by
        rw [List.flatMap_cons, List.append_assoc] at distinct
        exact List.perm_append_comm_assoc _ _ _ |>.nodup_iff.mp distinct
      obtain ⟨first, firstDone, firstLists⟩ := lists_insert (some parent) tree lists
        (List.nodup_append.mp regrouped).2.1
      have rest : (trees.flatMap Document.ids ++ (rows (some parent) (tree.map Item.of) ++
          others).map Prod.fst).Nodup := by
        rw [List.map_append, ids_rows_of]
        exact regrouped
      obtain ⟨inserted, done, allLists⟩ := lists_insertAll parent trees firstLists rest
      refine ⟨inserted, ?_, ?_⟩
      · rw [insertAll, firstDone]
        exact done
      · rw [List.map_cons, List.flatMap_cons, List.append_assoc]
        exact allLists.perm (List.perm_append_comm_assoc _ _ _)

end

/-- The edits that carry out new texts and new attributes. -/
def content : Record → List (Edit NodeId Item)
  | .text id text masked =>
      [.revise id fun item =>
        match item.kind with
        | .text _ isStyle => some { item with kind := .text text isStyle, masked }
        | _ => none]
  | .attributes id masked attributes style =>
      [.revise id fun item =>
        match item.kind with
        | .element element =>
            some { item with
              kind := .element { element with
                attributes := attributes.apply element.attributes
                style := style.apply element.style }
              masked }
        | _ => none]
  | _ => []

theorem names_content (record : Record) : ∀ edit ∈ content record,
    edit.names Item.id = [record.target] := by
  intro edit made
  cases record with
  | text id text masked => rw [List.mem_singleton.mp made]; rfl
  | attributes id masked attributes style => rw [List.mem_singleton.mp made]; rfl
  | add parent next subtree => contradiction
  | remove parent id => contradiction

/-- The edit of the tree that a record is. -/
def editsOf : Record → List (Edit NodeId Item) := Document.editsOf id Item.of content

/-- A change that keeps the root of what it changes leaves all rows around it. -/
theorem rows_changeAt {target : NodeId}
    {change : Item → List (Tree Item) → Option (Tree Item)}
    (keeps : ∀ item children changed, change item children = some changed →
      changed.data.id = item.id)
    {tree result : Tree Item} (done : tree.changeAt Item.id target change = some result) :
    ∃ outer before after item children changed, item.id = target ∧
      change item children = some changed ∧
      rows none tree = before ++ rows outer (.node item children) ++ after ∧
      rows none result = before ++ rows outer changed ++ after := by
  obtain ⟨frames, item, children, changed, rfl, here, inside, rfl⟩ := Tree.plug_of_changeAt done
  obtain ⟨outer, before, after, around⟩ := rows_plug frames none item.id
  exact ⟨outer, before, after, item, children, changed, here, inside, around _ rfl,
    around _ (keeps item children changed inside)⟩

theorem filter_other {β : Type u} {name : β → NodeId} {front back : List β} {gone : β}
    (distinct : ((front ++ gone :: back).map name).Nodup) :
    (front ++ gone :: back).filter (fun other => name other ≠ name gone) = front ++ back := by
  rw [List.map_append, List.map_cons, List.nodup_append, List.nodup_cons] at distinct
  obtain ⟨-, ⟨unlike, -⟩, apart⟩ := distinct
  have left : ∀ other ∈ front, name other ≠ name gone := fun other member =>
    apart _ (List.mem_map_of_mem member) _ List.mem_cons_self
  have right : ∀ other ∈ back, name other ≠ name gone := fun other member same =>
    unlike (same ▸ List.mem_map_of_mem member)
  rw [List.filter_append, List.filter_cons_of_neg (by simp),
    List.filter_eq_self.mpr (by simpa using left), List.filter_eq_self.mpr (by simpa using right)]

theorem applyRemove_of_edit {parent target : NodeId} {tree result : Tree Item} {entries : Entries}
    (distinct : (tree.keys Item.id).Nodup) (lists : Lists entries (rows none tree))
    (done : tree.edit Item.id (.remove parent target) = some result) :
    ∃ removed, applyRemove parent target entries = (removed, none) ∧
      Lists removed (rows none result) := by
  obtain ⟨outer, before, after, item, children, changed, rfl, inside, rowsBefore, rowsAfter⟩ :=
    rows_changeAt (fun _ _ _ removed => congrArg Item.id (Tree.root_of_removeChild removed)) done
  simp only [Tree.removeChild, Option.ite_none_right_eq_some, Option.some.injEq] at inside
  obtain ⟨present, rfl⟩ := inside
  obtain ⟨⟨leaf, offspring⟩, member, rfl⟩ := List.mem_map.mp present
  obtain ⟨front, back, rfl⟩ := List.append_of_mem member
  rw [← ids_rows none, rowsBefore] at distinct
  have inner : ((rows outer (.node item (front ++ .node leaf offspring :: back))).map
      Prod.fst).Nodup :=
    distinct.sublist (((List.sublist_append_right before _).trans
      (List.sublist_append_left _ after)).map Prod.fst)
  have siblings : ((front ++ .node leaf offspring :: back).map
      fun child : Tree Item => child.data.id).Nodup := by
    rw [ids_rows, Tree.keys_node] at inner
    exact (Tree.root_keys_sublist Item.id _).nodup (List.nodup_cons.mp inner).2
  have remaining : ((front ++ .node leaf offspring :: back).map
      fun child : Tree Item => child.data.id).filter (· ≠ leaf.id) =
      (front ++ back).map (·.data.id) := by
    rw [List.filter_map]
    exact congrArg _ (filter_other siblings)
  rw [rowsBefore, rows_node, List.append_assoc, List.cons_append] at lists
  rw [rows_node, List.append_assoc, List.cons_append] at distinct
  rw [filter_other siblings, rows_node] at rowsAfter
  have parentRow := lists.getElem? (List.mem_append_right before List.mem_cons_self)
  have goneRow : entries[leaf.id]? =
      some (leaf.entry (some item.id) (offspring.map (·.data.id))) :=
    lists.getElem? (by simp [rows_node])
  have replaced := lists.replace distinct (item.entry outer ((front ++ back).map (·.data.id)))
  -- The rows of the subtree come to the front, from where they are dropped.
  have grouped : (before ++ (item.id, item.entry outer ((front ++ back).map (·.data.id))) ::
      ((front ++ .node leaf offspring :: back).flatMap (rows (some item.id)) ++ after)).Perm
      (rows (some item.id) (.node leaf offspring) ++ rows none result) := by
    rw [rowsAfter]
    apply List.perm_iff_count.mpr
    intro row
    simp only [List.flatMap_append, List.flatMap_cons, List.count_append, List.count_cons]
    omega
  have apart : ((rows (some item.id) (.node leaf offspring) ++ rows none result).map
      Prod.fst).Nodup := by
    rw [← (grouped.map Prod.fst).nodup_iff]
    simpa using distinct
  rw [← List.append_nil (rows (some item.id) _)] at grouped apart
  have dropped := lists_dropAll [(some item.id, .node leaf offspring)]
    (replaced.perm grouped) apart
  refine ⟨_, ?_, dropped⟩
  change applyRemove item.id leaf.id entries = _
  unfold applyRemove
  rw [goneRow]
  simp only [Item.entry, if_true, modify_eq_insert parentRow]
  rw [remaining]
  rfl

theorem insertIndex_split {front back : List NodeId} {next : Option NodeId}
    (passed : ∀ id ∈ front, some id ≠ next) (found : back.head? = next) :
    insertIndex (front ++ back) next = .ok front.length := by
  cases back with
  | nil =>
      obtain rfl : none = next := found
      simp [insertIndex]
  | cons first back =>
      obtain rfl : some first = next := found
      have absent : first ∉ front := fun member => passed first member rfl
      have place : (front ++ first :: back).idxOf? first = some front.length := by
        clear passed
        induction front with
        | nil => simp [List.idxOf?_cons]
        | cons other front induction =>
            obtain ⟨unlike, rest⟩ := not_or.mp (mt List.mem_cons.mpr absent)
            rw [List.cons_append, List.idxOf?_cons, beq_eq_false_iff_ne.mpr (Ne.symm unlike),
              induction rest]
            rfl
      simp only [insertIndex, place]

theorem insertIdx_split {β : Type u} (front back : List β) (item : β) :
    (front ++ back).insertIdx front.length item = front ++ item :: back := by
  induction front with
  | nil => rfl
  | cons first front induction =>
      rw [List.cons_append, List.length_cons, List.insertIdx_succ_cons, induction, List.cons_append]

theorem applyAdd_of_edit {parent : NodeId} {next : Option NodeId} {subtree : Tree Node}
    {tree result : Tree Item} {entries : Entries} (lists : Lists entries (rows none tree))
    (done : tree.edit Item.id (.add parent next (subtree.map Item.of)) = some result) :
    ∃ added, applyAdd parent next subtree entries = (added, none) ∧
      Lists added (rows none result) := by
  simp only [Tree.edit, Option.ite_none_right_eq_some] at done
  obtain ⟨fresh, done⟩ := done
  obtain ⟨outer, before, after, item, children, changed, rfl, inside, rowsBefore, rowsAfter⟩ :=
    rows_changeAt (fun _ _ _ inserted => congrArg Item.id (Tree.root_of_insertChild inserted)) done
  obtain ⟨front, back, rfl, rfl, passed, found⟩ := Tree.split_of_insertChild inside
  have labelled : ∀ node : Node, (Item.of node).id = id node.id := fun _ => rfl
  rw [Document.keys_map Item.of labelled, List.map_id, ← ids_rows none] at fresh
  have free : subtree.find? (entries.contains ·.id) = none := by
    apply Tree.find?_eq_none_iff.mpr
    intro node member
    rw [← Bool.not_eq_true, Std.ExtTreeMap.contains_iff_mem, lists.mem_iff]
    exact fun taken => (List.nodup_append.mp fresh).2.2 _ (List.mem_map_of_mem member) _ taken rfl
  obtain ⟨inserted, put, all⟩ := lists_insert (some item.id) subtree lists fresh
  have index : insertIndex ((front ++ back).map (·.data.id)) next = .ok front.length := by
    rw [List.map_append, insertIndex_split, List.length_map]
    · simpa using passed
    · simpa using found
  have once : ((rows (some item.id) (subtree.map Item.of) ++ rows none tree).map
      Prod.fst).Nodup := by
    rw [List.map_append, ids_rows_of]
    exact fresh
  have parentRow : entries[item.id]? =
      some (item.entry outer ((front ++ back).map (·.data.id))) :=
    lists.getElem? (by simp [rowsBefore, rows_node])
  have parentLater := all.getElem?
    (List.mem_append_right (rows (some item.id) (subtree.map Item.of))
      ((lists _ _).mp parentRow))
  rw [rowsBefore, rows_node, List.append_assoc, List.cons_append, ← List.append_assoc] at all once
  have replaced := all.replace once
    (item.entry outer ((front ++ subtree.map Item.of :: back).map (·.data.id)))
  refine ⟨_, ?_, replaced.perm ?_⟩
  · have grown : ((front ++ back).map fun child : Tree Item => child.data.id).insertIdx front.length
        subtree.data.id = (front ++ subtree.map Item.of :: back).map (·.data.id) := by
      have images := insertIdx_split (front.map fun child : Tree Item => child.data.id)
        (back.map (·.data.id)) subtree.data.id
      rw [← List.map_append, List.length_map] at images
      rw [images, List.map_append, List.map_cons, Tree.data_map]
      rfl
    rw [applyAdd, parentRow]
    simp only [Item.entry, index, free, put, modify_eq_insert parentLater, grown]
  · rw [rowsAfter, rows_node]
    apply List.perm_iff_count.mpr
    intro row
    simp only [List.flatMap_append, List.flatMap_cons, List.count_append, List.count_cons]
    omega

theorem lists_revise {target : NodeId} {change : Item → Option Item} {tree result : Tree Item}
    {entries : Entries} (distinct : (tree.keys Item.id).Nodup)
    (lists : Lists entries (rows none tree))
    (done : tree.edit Item.id (.revise target change) = some result) :
    ∃ item revised parent children, change item = some revised ∧
      entries[target]? = some (item.entry parent children) ∧
      Lists (entries.insert target (revised.entry parent children)) (rows none result) := by
  obtain ⟨outer, before, after, item, children, changed, rfl, inside, rowsBefore, rowsAfter⟩ :=
    rows_changeAt (fun _ _ _ revised => Tree.root_of_reviseData revised) done
  simp only [Tree.reviseData, Option.map_eq_some_iff, Option.filter_eq_some_iff,
    decide_eq_true_eq] at inside
  obtain ⟨revised, ⟨became, same⟩, rfl⟩ := inside
  rw [← ids_rows none, rowsBefore, rows_node, List.append_assoc, List.cons_append] at distinct
  rw [rowsBefore, rows_node, List.append_assoc, List.cons_append] at lists
  rw [rowsAfter, rows_node, List.append_assoc, List.cons_append, same]
  exact ⟨item, revised, outer, children.map (·.data.id), became,
    lists.getElem? (List.mem_append_right before List.mem_cons_self),
    lists.replace distinct _⟩

/-- The replica takes every edit that a record stands for. -/
theorem applyRecord_of_edit {record : Record} {tree result : Tree Item} {entries : Entries}
    (distinct : (tree.keys Item.id).Nodup) (lists : Lists entries (rows none tree))
    (done : tree.play Item.id (editsOf record) = some result) :
    ∃ changed, applyRecord record entries = (changed, none) ∧
      Lists changed (rows none result) := by
  obtain ⟨edit, single⟩ : ∃ edit, editsOf record = [edit] := by cases record <;> exact ⟨_, rfl⟩
  have carried : tree.edit Item.id edit = some result := by
    rw [single, Tree.play] at done
    simpa [Tree.play] using done
  cases record with
  | remove parent id =>
      obtain rfl := List.singleton_injective single
      exact applyRemove_of_edit distinct lists carried
  | add parent next subtree =>
      obtain rfl := List.singleton_injective single
      rw [Option.map_id] at carried
      exact applyAdd_of_edit lists carried
  | text id text masked =>
      obtain rfl := List.singleton_injective single
      obtain ⟨item, revised, parent, children, became, there, revisedLists⟩ :=
        lists_revise distinct lists carried
      cases item with
      | mk target kind hidden =>
          cases kind with
          | text old isStyle =>
              obtain rfl := Option.some.inj became
              refine ⟨_, ?_, revisedLists⟩
              simp only [applyRecord, applyText, there, Item.entry]
          | document => contradiction
          | element element => contradiction
  | attributes id masked attributes style =>
      obtain rfl := List.singleton_injective single
      obtain ⟨item, revised, parent, children, became, there, revisedLists⟩ :=
        lists_revise distinct lists carried
      cases item with
      | mk target kind hidden =>
          cases kind with
          | element element =>
              obtain rfl := Option.some.inj became
              refine ⟨_, ?_, revisedLists⟩
              simp only [applyRecord, applyAttributes, there, Item.entry]
          | document => contradiction
          | text old isStyle => contradiction

theorem applyRecords_of_play {records : List Record} {tree result : Tree Item} {entries : Entries}
    (distinct : (tree.keys Item.id).Nodup) (lists : Lists entries (rows none tree))
    (done : tree.play Item.id (records.flatMap editsOf) = some result) :
    ∃ changed, applyRecords records entries = (changed, none) ∧
      Lists changed (rows none result) := by
  induction records generalizing tree entries with
  | nil =>
      cases done
      exact ⟨entries, rfl, lists⟩
  | cons record records induction =>
      rw [List.flatMap_cons, Tree.play_append] at done
      obtain ⟨middle, first, rest⟩ := Option.bind_eq_some_iff.mp done
      obtain ⟨changed, applied, changedLists⟩ := applyRecord_of_edit distinct lists first
      have middleDistinct : (middle.keys Item.id).Nodup := Tree.keys_play distinct first
      obtain ⟨final, others, finalLists⟩ := induction middleDistinct changedLists rest
      refine ⟨final, ?_, finalLists⟩
      rw [applyRecords, applied]
      exact others

theorem lists_ofTree {tree : Tree Node} (distinct : (Document.ids tree).Nodup) :
    Lists (ofTree tree).entries (rows none (tree.map Item.of)) := by
  obtain ⟨inserted, put, lists⟩ := lists_insert none tree lists_empty (by simpa using distinct)
  rw [ofTree, put]
  simpa using lists

end Replica

namespace Document

/-- Nothing is hidden of a document node. -/
def PlainDocuments (tree : Tree Node) : Prop :=
  ∀ node ∈ tree.preorder, node.kind = .document → node.masked = false

theorem apply_attributeDelta (flipped : Bool) (old new : Attributes) :
    (attributeDelta flipped old new).apply old = new := by
  cases flipped with
  | false => exact KeyDelta.apply_between old new
  | true => exact KeyDelta.apply_restate old new

/-- The new text or the new attributes of a node make all that a replica keeps of it new. -/
theorem play_faceChanges {old new : Node} (same : old.id = new.id)
    (shape : old.kind.sameShape new.kind)
    (oldPlain : old.kind = .document → old.masked = false)
    (newPlain : new.kind = .document → new.masked = false) (children : List (Tree Replica.Item)) :
    (Tree.node (Replica.Item.of old) children).play Replica.Item.id
        (((faceChanges old new).texts ++ (faceChanges old new).attributes).flatMap
          Replica.editsOf) =
      some (.node (Replica.Item.of new) children) := by
  rcases sameShape_cases shape with ⟨oldKind, newKind⟩ |
    ⟨oldElement, newElement, oldKind, newKind, tags⟩ | ⟨oldText, newText, isStyle, oldKind, newKind⟩
  · have unchanged : Replica.Item.of old = Replica.Item.of new := by
      rw [Replica.Item.of, Replica.Item.of, same, oldKind, newKind, oldPlain oldKind,
        newPlain newKind]
    simp [faceChanges, oldKind, newKind, Tree.play, unchanged]
  · rw [faceChanges_element oldKind newKind]
    split
    case isTrue still =>
      obtain ⟨attributes, style, masked⟩ := still
      have elements : oldElement = newElement := by
        cases oldElement
        cases newElement
        simp_all
      have unchanged : Replica.Item.of old = Replica.Item.of new := by
        rw [Replica.Item.of, Replica.Item.of, same, oldKind, newKind, masked, elements]
      simp [Tree.play, unchanged]
    case isFalse =>
      apply Tree.play_revise (show (Replica.Item.of old).id = new.id from same)
      · simp only [Replica.Item.of, oldKind, apply_attributeDelta, KeyDelta.apply_between,
          newKind, tags, same]
      · exact same.symm
  · rw [faceChanges_text oldKind newKind]
    split
    case isTrue still =>
      obtain ⟨text, masked⟩ := still
      have unchanged : Replica.Item.of old = Replica.Item.of new := by
        rw [Replica.Item.of, Replica.Item.of, same, oldKind, newKind, masked, text]
      simp [Tree.play, unchanged]
    case isFalse =>
      apply Tree.play_revise (show (Replica.Item.of old).id = new.id from same)
      · simp only [Replica.Item.of, oldKind, newKind, same]
      · exact same.symm

/-- The changes between two documents take the replica of the first, without a refusal, to the
replica of the second. -/
theorem ofTree_apply_changes {previous current : Tree Node} {records : List Record}
    (compared : changes previous current = .ok records) (previousDistinct : (ids previous).Nodup)
    (currentDistinct : (ids current).Nodup) (previousPlain : PlainDocuments previous)
    (currentPlain : PlainDocuments current) :
    (Replica.ofTree previous).apply records = (Replica.ofTree current, none) := by
  have played := play_changes Replica.content (fun _ => rfl) Function.injective_id compared
    previousDistinct currentDistinct Replica.names_content (by
      intro old oldInside new newInside same shape children
      exact play_faceChanges same shape (previousPlain old oldInside) (currentPlain new newInside)
        children)
  have start : ((previous.map Replica.Item.of).keys Replica.Item.id).Nodup := by
    rw [← Replica.ids_rows none, Replica.ids_rows_of]
    exact previousDistinct
  obtain ⟨entries, applied, lists⟩ :=
    Replica.applyRecords_of_play start (Replica.lists_ofTree previousDistinct) played
  obtain rfl := lists.unique (Replica.lists_ofTree currentDistinct)
  have root := (changes_ok compared).1
  rw [Replica.apply, applied]
  simp [Replica.ofTree, root]

/-- An element inside another one, with a text beside it. -/
def nested (outer inner : NodeId) (content : String) : Tree Node :=
  .node { id := ⟨1⟩, kind := .document }
    [.node { id := outer, kind := .element { tag := .div } }
      [.node { id := inner, kind := .element { tag := .div } } [],
       .node { id := ⟨4⟩, kind := .text content false } []]]

/-- The outer and the inner element change places, and the text between them is another. -/
theorem ofTree_apply_changes_swapped :
    ∃ records, changes (nested ⟨2⟩ ⟨3⟩ "a") (nested ⟨3⟩ ⟨2⟩ "b") = .ok records ∧
      (Replica.ofTree (nested ⟨2⟩ ⟨3⟩ "a")).apply records =
        (Replica.ofTree (nested ⟨3⟩ ⟨2⟩ "b"), none) := by
  refine ⟨(changesAt (nested ⟨2⟩ ⟨3⟩ "a") (nested ⟨3⟩ ⟨2⟩ "b")).records, rfl, ?_⟩
  apply ofTree_apply_changes
  · rfl
  · decide
  · decide
  · unfold PlainDocuments
    decide
  · unfold PlainDocuments
    decide

end Document

end SessionReplay
