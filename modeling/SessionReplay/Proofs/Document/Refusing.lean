import SessionReplay.Proofs.Document.Inserting

/-!
What a record that is refused leaves behind. All but one sort of them leave the replica as it was:
an addition whose subtree has an id twice passes the check that is made before, and is refused when
part of the subtree is in already.
-/

namespace SessionReplay.Replica

theorem applyRemove_refused {parent id : NodeId} {entries : Entries}
    (refused : (applyRemove parent id entries).2 ≠ none) :
    (applyRemove parent id entries).1 = entries := by
  unfold applyRemove at refused ⊢
  split
  case h_1 => rfl
  case h_2 there =>
    simp only [there] at refused
    split
    case isTrue under => exact absurd (by rw [if_pos under]) refused
    case isFalse => rfl

theorem applyText_refused {id : NodeId} {content : String} {masked : Bool} {entries : Entries}
    (refused : (applyText id content masked entries).2 ≠ none) :
    (applyText id content masked entries).1 = entries := by
  unfold applyText at refused ⊢
  split
  case h_1 => rfl
  case h_2 there =>
    simp only [there] at refused
    split
    case h_1 kind => simp [kind] at refused
    case h_2 => rfl

theorem applyAttributes_refused {id : NodeId} {masked : Bool} {attributes style : KeyDelta}
    {entries : Entries} (refused : (applyAttributes id masked attributes style entries).2 ≠ none) :
    (applyAttributes id masked attributes style entries).1 = entries := by
  unfold applyAttributes at refused ⊢
  split
  case h_1 => rfl
  case h_2 there =>
    simp only [there] at refused
    split
    case h_1 kind => simp [kind] at refused
    case h_2 => rfl

/-- An addition that passes the checks but not each step has its subtree's root in already. -/
theorem getElem?_applyAdd_refused {parent : NodeId} {next : Option NodeId} {subtree : Tree Node}
    {entries : Entries} (admits : Admits entries parent next subtree)
    (repeated : ¬(Document.ids subtree).Nodup) :
    (applyAdd parent next subtree entries).2 ≠ none ∧
      (∀ id ∈ entries, (applyAdd parent next subtree entries).1[id]? = entries[id]?) ∧
      (∀ id ∈ (applyAdd parent next subtree entries).1,
        id ∈ Document.ids subtree ∨ id ∈ entries) ∧
      (applyAdd parent next subtree entries).1[subtree.data.id]? =
        some ⟨subtree.data.kind, subtree.data.masked, some parent,
          subtree.children.map (·.data.id)⟩ := by
  have refused : (insert (some parent) subtree entries).2 ≠ none :=
    fun accepted => repeated (insert_accepted_iff.mp accepted).1
  have absent : subtree.data.id ∉ entries := admits.fresh _ (Document.id_mem_ids subtree)
  rw [(applyAdd_of_admits admits).2 refused]
  refine ⟨refused, fun id there => getElem?_insert_of_mem _ _ there,
    fun id member => mem_of_mem_insert _ _ member, ?_⟩
  cases subtree with
  | node data children =>
      change data.id ∉ entries at absent
      change (insert (some parent) (.node data children) entries).1[data.id]? = _
      rw [insert, if_neg (mt Std.ExtTreeMap.contains_iff_mem.mp absent),
        getElem?_insertAll_of_mem data.id children Std.ExtTreeMap.mem_insert_self,
        Std.ExtTreeMap.getElem?_insert_self]
      rfl

/-- A refused record leaves the replica as it was, unless it is an addition that passes the checks
and brings an id twice. Then the root of its subtree stays, below a parent that does not list it. -/
theorem refused_changes_iff (replica : Replica) :
    (∀ record : Record,
      ((replica.apply [record]).2 ≠ none ∧ (replica.apply [record]).1 ≠ replica) ↔
        ∃ parent next subtree, record = .add parent next subtree ∧
          Admits replica.entries parent next subtree ∧ ¬(Document.ids subtree).Nodup) ∧
      ∀ parent next subtree, Admits replica.entries parent next subtree →
        ¬(Document.ids subtree).Nodup →
        (∀ id ∈ replica.entries, (replica.apply [.add parent next subtree]).1.entries[id]? =
          replica.entries[id]?) ∧
        (∀ id ∈ (replica.apply [.add parent next subtree]).1.entries,
          id ∈ Document.ids subtree ∨ id ∈ replica.entries) ∧
        subtree.data.id ∉ replica.entries ∧
        (replica.apply [.add parent next subtree]).1.entries[subtree.data.id]? =
          some ⟨subtree.data.kind, subtree.data.masked, some parent,
            subtree.children.map (·.data.id)⟩ := by
  have changed : ∀ record, (replica.apply [record]).1 ≠ replica ↔
      (applyRecord record replica.entries).1 ≠ replica.entries := by
    intro record
    rw [apply, applyRecords_single]
    cases replica
    simp
  have refusal : ∀ record, (replica.apply [record]).2 = (applyRecord record replica.entries).2 := by
    intro record
    rw [apply, applyRecords_single]
  constructor
  · intro record
    rw [changed, refusal]
    constructor
    · rintro ⟨refused, other⟩
      cases record with
      | add parent next subtree =>
          by_cases admits : Admits replica.entries parent next subtree
          · refine ⟨parent, next, subtree, rfl, admits, fun distinct => ?_⟩
            exact refused (applyAdd_accepted_iff.mpr ⟨admits, distinct⟩)
          · obtain ⟨_, stopped⟩ := applyAdd_of_not_admits admits
            exact absurd (congrArg Prod.fst stopped) other
      | remove parent id => exact absurd (applyRemove_refused refused) other
      | text id content masked => exact absurd (applyText_refused refused) other
      | attributes id masked attributes style =>
          exact absurd (applyAttributes_refused refused) other
    · rintro ⟨parent, next, subtree, rfl, admits, repeated⟩
      obtain ⟨refused, -, -, root⟩ := getElem?_applyAdd_refused admits repeated
      refine ⟨refused, fun same => admits.fresh _ (Document.id_mem_ids subtree) ?_⟩
      rw [← Std.ExtTreeMap.isSome_getElem?_iff_mem, ← same]
      exact root ▸ rfl
  · intro parent next subtree admits repeated
    obtain ⟨-, kept, brought, root⟩ := getElem?_applyAdd_refused admits repeated
    rw [apply, applyRecords_single]
    exact ⟨kept, brought, admits.fresh _ (Document.id_mem_ids subtree), root⟩

end SessionReplay.Replica
