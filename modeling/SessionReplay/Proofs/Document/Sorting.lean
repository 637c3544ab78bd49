import SessionReplay.Proofs.Document.Changes

/-!
The records of a comparison by kind. Each of the four lists that changes consist of holds records
of one kind only, so that all removals come first and what is made of the records of one kind is
made of one list.
-/

namespace SessionReplay.Document

inductive Act where
  | remove
  | add
  | text
  | attributes
deriving DecidableEq

def act : Record → Act
  | .add .. => .add
  | .remove .. => .remove
  | .text .. => .text
  | .attributes .. => .attributes

theorem eq_remove {record : Record} (kind : act record = .remove) :
    ∃ parent id, record = .remove parent id := by
  cases record with
  | remove parent id => exact ⟨parent, id, rfl⟩
  | add => contradiction
  | text => contradiction
  | attributes => contradiction

theorem eq_add {record : Record} (kind : act record = .add) :
    ∃ parent next subtree, record = .add parent next subtree := by
  cases record with
  | add parent next subtree => exact ⟨parent, next, subtree, rfl⟩
  | remove => contradiction
  | text => contradiction
  | attributes => contradiction

/-- Each list has records of its own kind only. -/
structure Sorted (changes : Changes) : Prop where
  removes : ∀ record ∈ changes.removes, act record = .remove
  adds : ∀ record ∈ changes.adds, act record = .add
  texts : ∀ record ∈ changes.texts, act record = .text
  attributes : ∀ record ∈ changes.attributes, act record = .attributes

theorem sorted_empty : Sorted {} :=
  ⟨List.forall_mem_nil _, List.forall_mem_nil _, List.forall_mem_nil _, List.forall_mem_nil _⟩

theorem Sorted.append {first second : Changes} (one : Sorted first) (two : Sorted second) :
    Sorted (first ++ second) :=
  ⟨List.forall_mem_append.mpr ⟨one.removes, two.removes⟩,
    List.forall_mem_append.mpr ⟨one.adds, two.adds⟩,
    List.forall_mem_append.mpr ⟨one.texts, two.texts⟩,
    List.forall_mem_append.mpr ⟨one.attributes, two.attributes⟩⟩

theorem isRemove_eq (record : Record) : record.isRemove = decide (act record ∈ [Act.remove]) := by
  cases record <;> rfl

theorem isAdd_eq (record : Record) : record.isAdd = decide (act record ∈ [Act.add]) := by
  cases record <;> rfl

/-- A test for kinds takes a list of records of one kind or leaves it. -/
theorem filter_act {test : Record → Bool} {kinds : List Act}
    (tests : ∀ record, test record = decide (act record ∈ kinds)) {records : List Record}
    {kind : Act} (all : ∀ record ∈ records, act record = kind) :
    records.filter test = if kind ∈ kinds then records else [] := by
  split
  case isTrue wanted =>
    apply List.filter_eq_self.mpr
    intro record member
    simp [tests, all record member, wanted]
  case isFalse unwanted =>
    apply List.filter_eq_nil_iff.mpr
    intro record member
    simp [tests, all record member, unwanted]

/-- What is made of the records of one kind is made of one list. -/
theorem flatMap_act {β : Type} (f : Record → List β) (kind : Act) {records : List Record}
    {other : Act} (all : ∀ record ∈ records, act record = other) :
    (records.flatMap fun record => if act record = kind then f record else []) =
      if other = kind then records.flatMap f else [] := by
  have same : (records.flatMap fun record => if act record = kind then f record else []) =
      records.flatMap fun record => if other = kind then f record else [] :=
    List.flatMap_congr fun record member => by rw [all record member]
  rw [same]
  split
  case isTrue => rfl
  case isFalse => simp

theorem Sorted.flatMap {β : Type} {changes : Changes} (sorted : Sorted changes)
    (f : Record → List β) (kind : Act) :
    (changes.records.flatMap fun record => if act record = kind then f record else []) =
      match kind with
      | .remove => changes.removes.flatMap f
      | .add => changes.adds.flatMap f
      | .text => changes.texts.flatMap f
      | .attributes => changes.attributes.flatMap f := by
  simp only [Changes.records, List.flatMap_append, flatMap_act f kind sorted.removes,
    flatMap_act f kind sorted.adds, flatMap_act f kind sorted.texts,
    flatMap_act f kind sorted.attributes]
  cases kind <;> simp

theorem Sorted.filter {changes : Changes} (sorted : Sorted changes) {test : Record → Bool}
    {kinds : List Act} (tests : ∀ record, test record = decide (act record ∈ kinds)) :
    changes.records.filter test =
      (if Act.remove ∈ kinds then changes.removes else []) ++
        (if Act.add ∈ kinds then changes.adds else []) ++
        (if Act.text ∈ kinds then changes.texts else []) ++
        (if Act.attributes ∈ kinds then changes.attributes else []) := by
  simp only [Changes.records, List.filter_append, filter_act tests sorted.removes,
    filter_act tests sorted.adds, filter_act tests sorted.texts,
    filter_act tests sorted.attributes]

theorem Sorted.mem_adds {changes : Changes} (sorted : Sorted changes) {parent : NodeId}
    {next : Option NodeId} {subtree : Tree Node}
    (member : .add parent next subtree ∈ changes.records) :
    .add parent next subtree ∈ changes.adds := by
  rcases List.mem_append.mp member with others | attributes
  · rcases List.mem_append.mp others with moves | text
    · rcases List.mem_append.mp moves with removed | added
      · exact absurd (sorted.removes _ removed) nofun
      · exact added
    · exact absurd (sorted.texts _ text) nofun
  · exact absurd (sorted.attributes _ attributes) nofun

/-- Whatever removes nodes stands before all that does not. -/
theorem Sorted.removals_first {changes : Changes} (sorted : Sorted changes) :
    ∃ removes others, changes.records = removes ++ others ∧
      (∀ record ∈ removes, act record = .remove) ∧ ∀ record ∈ others, act record ≠ .remove := by
  refine ⟨changes.removes, changes.adds ++ changes.texts ++ changes.attributes, ?_,
    sorted.removes, ?_⟩
  · simp [Changes.records]
  · rw [List.forall_mem_append, List.forall_mem_append]
    refine ⟨⟨fun record member => ?_, fun record member => ?_⟩, fun record member => ?_⟩
    · rw [sorted.adds record member]
      exact Act.noConfusion
    · rw [sorted.texts record member]
      exact Act.noConfusion
    · rw [sorted.attributes record member]
      exact Act.noConfusion

theorem sorted_faceChanges (previous current : Node) : Sorted (faceChanges previous current) := by
  unfold faceChanges
  dsimp only
  split
  case h_1 =>
    split
    · exact { sorted_empty with texts := List.forall_mem_singleton.mpr rfl }
    · exact sorted_empty
  case h_2 =>
    split
    · exact { sorted_empty with attributes := List.forall_mem_singleton.mpr rfl }
    · exact sorted_empty
  case h_3 => exact sorted_empty

theorem sorted_moves (parent : NodeId) (previous current : List (Tree Node))
    (stay : List (Option Nat)) :
    Sorted { removes := removals parent previous stay, adds := additions parent current stay } where
  removes := by
    intro record member
    obtain ⟨⟨child, position⟩, -, made⟩ := List.mem_filterMap.mp member
    dsimp only at made
    split at made
    case isTrue => contradiction
    case isFalse =>
      cases made
      rfl
  adds := by
    intro record member
    obtain ⟨next, child, -, rfl⟩ := mem_additions member
    rfl
  texts := List.forall_mem_nil _
  attributes := List.forall_mem_nil _

mutual

theorem sorted_changesAt (previous : Tree Node) : (current : Tree Node) →
    Sorted (changesAt previous current)
  | .node now children =>
      ((sorted_faceChanges previous.data now).append (sorted_moves _ _ _ _)).append
        (sorted_changesBelow _ children)

theorem sorted_changesBelow : (slots : List (Option (Tree Node))) → (children : List (Tree Node)) →
    Sorted (changesBelow slots children)
  | some before :: slots, child :: children =>
      (sorted_changesAt before child).append (sorted_changesBelow slots children)
  | none :: slots, _ :: children => sorted_changesBelow slots children
  | [], [] => sorted_empty
  | [], _ :: _ => sorted_empty
  | none :: _, [] => sorted_empty
  | some _ :: _, [] => sorted_empty

end

/-- A subtree that is added is one of the current document's, and not the whole. -/
theorem inside_of_added {previous current subtree : Tree Node} {records : List Record}
    (compared : changes previous current = .ok records) {parent : NodeId} {next : Option NodeId}
    (member : .add parent next subtree ∈ records) :
    ∃ child ∈ current.children, Tree.Inside subtree child := by
  rw [← (changes_ok compared).2.2] at member
  have added := (sorted_changesAt previous current).mem_adds member
  obtain ⟨_, _, _, same, -, inside⟩ := mem_adds added
  cases same
  exact inside

end SessionReplay.Document
