import SessionReplay.Proofs.Document.Replaying

/-!
When a subtree can be put into a replica, and what is there afterwards when it cannot. An addition
is checked before it begins, and once more at each node that it puts in. The second check alone
sees an id that the subtree has twice.
-/

namespace SessionReplay.Replica

mutual

/-- What a replica holds stays when a subtree is put in, whether that is refused or not. -/
theorem getElem?_insert_of_mem : (parent : Option NodeId) → (tree : Tree Node) →
    {entries : Entries} → {id : NodeId} → id ∈ entries →
    (insert parent tree entries).1[id]? = entries[id]?
  | parent, .node data children, entries, id, there => by
      rw [insert]
      split
      case isTrue => rfl
      case isFalse absent =>
        have other : data.id ≠ id := by
          rintro rfl
          exact absent (Std.ExtTreeMap.contains_iff_mem.mpr there)
        rw [getElem?_insertAll_of_mem data.id children (Std.ExtTreeMap.mem_insert.mpr (.inr there)),
          Std.ExtTreeMap.getElem?_insert, if_neg (by simpa using other)]

theorem getElem?_insertAll_of_mem : (parent : NodeId) → (trees : List (Tree Node)) →
    {entries : Entries} → {id : NodeId} → id ∈ entries →
    (insertAll parent trees entries).1[id]? = entries[id]?
  | _, [], _, _, _ => rfl
  | parent, tree :: trees, entries, id, there => by
      have first := getElem?_insert_of_mem (some parent) tree there
      rw [insertAll]
      split
      case h_1 inserted done =>
        rw [done] at first
        have still : id ∈ inserted := by
          rw [← Std.ExtTreeMap.isSome_getElem?_iff_mem, first,
            Std.ExtTreeMap.isSome_getElem?_iff_mem]
          exact there
        rw [getElem?_insertAll_of_mem parent trees still, first]
      case h_2 => exact first

end

theorem mem_insert_of_mem (parent : Option NodeId) (tree : Tree Node) {entries : Entries}
    {id : NodeId} (there : id ∈ entries) : id ∈ (insert parent tree entries).1 := by
  rw [← Std.ExtTreeMap.isSome_getElem?_iff_mem, getElem?_insert_of_mem parent tree there,
    Std.ExtTreeMap.isSome_getElem?_iff_mem]
  exact there

theorem mem_insertAll_of_mem (parent : NodeId) (trees : List (Tree Node)) {entries : Entries}
    {id : NodeId} (there : id ∈ entries) : id ∈ (insertAll parent trees entries).1 := by
  rw [← Std.ExtTreeMap.isSome_getElem?_iff_mem, getElem?_insertAll_of_mem parent trees there,
    Std.ExtTreeMap.isSome_getElem?_iff_mem]
  exact there

mutual

theorem mem_of_mem_insert : (parent : Option NodeId) → (tree : Tree Node) → {entries : Entries} →
    {id : NodeId} → id ∈ (insert parent tree entries).1 → id ∈ Document.ids tree ∨ id ∈ entries
  | parent, .node data children, entries, id, member => by
      rw [insert] at member
      rw [Document.ids_node, List.mem_cons]
      split at member
      case isTrue => exact .inr member
      case isFalse =>
        rcases mem_of_mem_insertAll data.id children member with below | above
        · exact .inl (.inr below)
        · rcases Std.ExtTreeMap.mem_insert.mp above with here | before
          · exact .inl (.inl (Std.LawfulEqCmp.eq_of_compare here).symm)
          · exact .inr before

theorem mem_of_mem_insertAll : (parent : NodeId) → (trees : List (Tree Node)) →
    {entries : Entries} → {id : NodeId} → id ∈ (insertAll parent trees entries).1 →
    id ∈ trees.flatMap Document.ids ∨ id ∈ entries
  | _, [], _, _, member => .inr member
  | parent, tree :: trees, entries, id, member => by
      have first : id ∈ (insert (some parent) tree entries).1 → _ :=
        mem_of_mem_insert (some parent) tree
      rw [List.flatMap_cons, List.mem_append, or_assoc]
      rw [insertAll] at member
      split at member
      case h_1 inserted done =>
        rw [done] at first
        rcases mem_of_mem_insertAll parent trees member with later | before
        · exact .inr (.inl later)
        · exact (first before).imp_right .inr
      case h_2 => exact (first member).imp_right .inr

end

mutual

/-- A subtree that is put in has each id once, and none that was taken. -/
theorem fresh_of_insert : (parent : Option NodeId) → (tree : Tree Node) →
    {entries inserted : Entries} → insert parent tree entries = (inserted, none) →
    (Document.ids tree).Nodup ∧ ∀ id ∈ Document.ids tree, id ∉ entries ∧ id ∈ inserted
  | parent, .node data children, entries, inserted, done => by
      rw [insert] at done
      split at done
      case isTrue => simp at done
      case isFalse absent =>
        rw [Std.ExtTreeMap.contains_iff_mem] at absent
        obtain ⟨distinct, fresh⟩ := fresh_of_insertAll data.id children done
        have root : data.id ∈ inserted := by
          have kept := mem_insertAll_of_mem data.id children (Std.ExtTreeMap.mem_insert_self
            (t := entries) (k := data.id)
            (v := ⟨data.kind, data.masked, parent, children.map (·.data.id)⟩))
          rwa [done] at kept
        have other : ∀ id ∈ children.flatMap Document.ids, id ≠ data.id ∧ id ∉ entries := by
          intro id member
          have missing := (fresh id member).1
          rw [Std.ExtTreeMap.mem_insert, not_or] at missing
          exact ⟨fun same => missing.1 (by simp [same]), missing.2⟩
        rw [Document.ids_node, List.nodup_cons, List.forall_mem_cons]
        exact ⟨⟨fun member => (other _ member).1 rfl, distinct⟩, ⟨absent, root⟩,
          fun id member => ⟨(other id member).2, (fresh id member).2⟩⟩

theorem fresh_of_insertAll : (parent : NodeId) → (trees : List (Tree Node)) →
    {entries inserted : Entries} → insertAll parent trees entries = (inserted, none) →
    (trees.flatMap Document.ids).Nodup ∧
      ∀ id ∈ trees.flatMap Document.ids, id ∉ entries ∧ id ∈ inserted
  | _, [], _, _, _ => by simp
  | parent, tree :: trees, entries, inserted, done => by
      rw [insertAll] at done
      split at done
      case h_1 middle first =>
        obtain ⟨distinct, fresh⟩ := fresh_of_insert (some parent) tree first
        obtain ⟨laterDistinct, laterFresh⟩ := fresh_of_insertAll parent trees done
        have before : ∀ id ∈ entries, id ∈ middle := by
          intro id member
          have kept := mem_insert_of_mem (some parent) tree member
          rwa [first] at kept
        have after : ∀ id ∈ middle, id ∈ inserted := by
          intro id member
          have kept := mem_insertAll_of_mem parent trees member
          rwa [done] at kept
        rw [List.flatMap_cons, List.nodup_append, List.forall_mem_append]
        refine ⟨⟨distinct, laterDistinct, ?_⟩, ?_, ?_⟩
        · rintro id member _ later rfl
          exact (laterFresh id later).1 (fresh id member).2
        · exact fun id member => ⟨(fresh id member).1, after id (fresh id member).2⟩
        · exact fun id later => ⟨mt (before id) (laterFresh id later).1, (laterFresh id later).2⟩
      case h_2 refused =>
        rw [done] at refused
        exact absurd rfl (refused inserted)

end

/-- A subtree is put in when it has each id once and none of them is taken. -/
theorem insert_accepted_iff {parent : Option NodeId} {tree : Tree Node} {entries : Entries} :
    (insert parent tree entries).2 = none ↔
      (Document.ids tree).Nodup ∧ ∀ id ∈ Document.ids tree, id ∉ entries := by
  constructor
  · intro accepted
    obtain ⟨distinct, fresh⟩ := fresh_of_insert parent tree (Prod.ext rfl accepted)
    exact ⟨distinct, fun id member => (fresh id member).1⟩
  · rintro ⟨distinct, fresh⟩
    have lists : Lists entries entries.toList := fun id entry =>
      Std.ExtTreeMap.mem_toList_iff_getElem?_eq_some.symm
    have apart : (Document.ids tree ++ entries.toList.map Prod.fst).Nodup := by
      rw [Std.ExtTreeMap.map_fst_toList_eq_keys, List.nodup_append]
      refine ⟨distinct, Std.ExtTreeMap.nodup_keys, ?_⟩
      rintro id member _ taken rfl
      exact fresh id member (Std.ExtTreeMap.mem_keys.mp taken)
    obtain ⟨inserted, done, -⟩ := lists_insert parent tree lists apart
    rw [done]

/-- The checks that an addition passes before its subtree is put in. -/
structure Admits (entries : Entries) (parent : NodeId) (next : Option NodeId)
    (subtree : Tree Node) : Prop where
  place : ∃ entry, entries[parent]? = some entry ∧ ∀ id, next = some id → id ∈ entry.children
  fresh : ∀ id ∈ Document.ids subtree, id ∉ entries

theorem insertIndex_ok_iff {children : List NodeId} {next : Option NodeId} :
    (∃ index, insertIndex children next = .ok index) ↔ ∀ id, next = some id → id ∈ children := by
  cases next with
  | none => simp [insertIndex]
  | some next =>
      simp only [insertIndex, Option.some.injEq, forall_eq']
      rw [← List.isSome_idxOf?, Option.isSome_iff_exists]
      cases children.idxOf? next <;> simp

theorem free_iff {entries : Entries} {subtree : Tree Node} :
    subtree.find? (entries.contains ·.id) = none ↔
      ∀ id ∈ Document.ids subtree, id ∉ entries := by
  rw [Tree.find?_eq_none_iff, Document.ids, List.forall_mem_map]
  exact forall₂_congr fun node _ => by
    rw [← Bool.not_eq_true, Std.ExtTreeMap.contains_iff_mem]

theorem applyAdd_of_admits {parent : NodeId} {next : Option NodeId} {subtree : Tree Node}
    {entries : Entries} (admits : Admits entries parent next subtree) :
    ((applyAdd parent next subtree entries).2 = none ↔
        (insert (some parent) subtree entries).2 = none) ∧
      ((insert (some parent) subtree entries).2 ≠ none →
        applyAdd parent next subtree entries = insert (some parent) subtree entries) := by
  obtain ⟨⟨entry, there, beside⟩, fresh⟩ := admits
  obtain ⟨index, found⟩ := insertIndex_ok_iff.mpr beside
  simp only [applyAdd, there, found, free_iff.mpr fresh]
  split
  case h_1 put => simp [put]
  case h_2 => simp

theorem applyAdd_of_not_admits {parent : NodeId} {next : Option NodeId} {subtree : Tree Node}
    {entries : Entries} (refused : ¬Admits entries parent next subtree) :
    ∃ refusal, applyAdd parent next subtree entries = (entries, some refusal) := by
  cases there : entries[parent]? with
  | none => exact ⟨_, by rw [applyAdd, there]⟩
  | some entry =>
      cases found : insertIndex entry.children next with
      | error refusal => exact ⟨refusal, by simp only [applyAdd, there, found]⟩
      | ok index =>
          cases free : subtree.find? (entries.contains ·.id) with
          | some taken => exact ⟨_, by simp only [applyAdd, there, found, free]; rfl⟩
          | none =>
              exact absurd ⟨⟨entry, there, insertIndex_ok_iff.mp ⟨index, found⟩⟩,
                free_iff.mp free⟩ refused

theorem applyAdd_accepted_iff {parent : NodeId} {next : Option NodeId} {subtree : Tree Node}
    {entries : Entries} : (applyAdd parent next subtree entries).2 = none ↔
      Admits entries parent next subtree ∧ (Document.ids subtree).Nodup := by
  by_cases admits : Admits entries parent next subtree
  · rw [(applyAdd_of_admits admits).1, insert_accepted_iff, and_iff_left admits.fresh,
      and_iff_right admits]
  · obtain ⟨refusal, refused⟩ := applyAdd_of_not_admits admits
    simp [refused, admits]

theorem applyRecords_single (record : Record) (entries : Entries) :
    applyRecords [record] entries = applyRecord record entries := by
  rw [applyRecords]
  split
  case h_1 applied => exact applied.symm
  case h_2 => rfl

end SessionReplay.Replica
