import Mathlib.Data.List.Flatten
import Mathlib.Data.List.Perm.Basic
import SessionReplay.Proofs.Document.Sorting

/-!
The nodes that stay, each with what it was. The comparison goes down along them from the roots, and
a record that moves a child comes from the one pair of nodes whose child it is.
-/

namespace SessionReplay

/-- The node that gets a child or loses one. -/
def Record.parent? : Record → Option NodeId
  | add parent .. => some parent
  | remove parent _ => some parent
  | text .. => none
  | attributes .. => none

namespace Document

/-- The children that have a former tree, each with that. -/
def pairs : List (Option (Tree Node)) → List (Tree Node) → List (Tree Node × Tree Node)
  | some before :: slots, child :: children => (before, child) :: pairs slots children
  | none :: slots, _ :: children => pairs slots children
  | _, _ => []

section Pairs

variable {related : Tree Node → Tree Node → Prop} {slots : List (Option (Tree Node))}
variable {children : List (Tree Node)}

theorem map_fst_pairs (beside : Beside related slots children) :
    (pairs slots children).map Prod.fst = slots.filterMap id := by
  induction beside with
  | nil => rfl
  | fresh child _ induction => exact induction
  | kept first _ induction => exact congrArg _ induction

theorem map_snd_pairs (beside : Beside related slots children) :
    ((pairs slots children).map Prod.snd).Sublist children := by
  induction beside with
  | nil => exact List.Sublist.refl _
  | fresh child _ induction => exact induction.cons child
  | kept first _ induction => exact induction.cons_cons _

theorem related_of_mem_pairs (beside : Beside related slots children) :
    ∀ pair ∈ pairs slots children, related pair.1 pair.2 := by
  induction beside with
  | nil => exact List.forall_mem_nil _
  | fresh child _ induction => exact induction
  | kept first _ induction => exact List.forall_mem_cons.mpr ⟨first, induction⟩

theorem mem_pairs_iff {before child : Tree Node} : (before, child) ∈ pairs slots children ↔
    ∃ index : Nat, slots[index]? = some (some before) ∧ children[index]? = some child := by
  fun_induction pairs slots children with
  | case1 former slots other children induction =>
      rw [List.mem_cons, induction]
      constructor
      · rintro (same | ⟨index, slot, there⟩)
        · cases same
          exact ⟨0, rfl, rfl⟩
        · exact ⟨index + 1, slot, there⟩
      · rintro ⟨_ | index, slot, there⟩
        · cases slot
          cases there
          exact .inl rfl
        · exact .inr ⟨index, slot, there⟩
  | case2 slots other children induction =>
      rw [induction]
      constructor
      · rintro ⟨index, slot, there⟩
        exact ⟨index + 1, slot, there⟩
      · rintro ⟨_ | index, slot, there⟩
        · cases slot
        · exact ⟨index, slot, there⟩
  | case3 slots children noPair noGap =>
      constructor
      · intro member
        contradiction
      · rintro ⟨index, slot, there⟩
        cases slots with
        | nil => contradiction
        | cons first slots =>
            cases children with
            | nil => contradiction
            | cons other children =>
                cases first with
                | none => exact absurd rfl (noGap slots other children rfl)
                | some former => exact absurd rfl (noPair former slots other children rfl)

/-- What changes below a node are the changes of its children that stay. -/
theorem part_changesBelow {part : Changes → List Record} (additive : Additive part)
    (slots : List (Option (Tree Node))) (children : List (Tree Node)) :
    part (changesBelow slots children) =
      (pairs slots children).flatMap fun pair => part (changesAt pair.1 pair.2) := by
  fun_induction pairs slots children with
  | case1 before slots child children induction =>
      rw [changesBelow, additive.append, induction]
      rfl
  | case2 slots child children induction => exact induction
  | case3 slots children noPair noGap =>
      rw [changesBelow]
      · exact additive.empty
      · exact noPair
      · exact noGap

end Pairs

/-- A list of the records that give a node its children or take them away. -/
structure Moving (part : Changes → List Record) : Prop extends Additive part where
  still : ∀ previous current, part (faceChanges previous current) = []
  own : ∀ parent previous current stay, ∀ record ∈ part
    { removes := removals parent previous stay, adds := additions parent current stay },
    record.parent? = some parent

theorem moving_removes : Moving Changes.removes where
  toAdditive := additive_removes
  still previous current := (faceChanges_moves_nothing previous current).1
  own parent previous current stay record member := by
    rw [removals_eq_map_leaving] at member
    obtain ⟨id, -, rfl⟩ := List.mem_map.mp member
    rfl

theorem moving_adds : Moving Changes.adds where
  toAdditive := additive_adds
  still previous current := (faceChanges_moves_nothing previous current).2
  own parent previous current stay record member := by
    obtain ⟨next, child, -, rfl⟩ := mem_additions member
    rfl

/-- What comes and goes directly below a node that stays. -/
def moves (former latter : Tree Node) : Changes where
  removes := removals latter.data.id former.children (staying former.children latter.children)
  adds := additions latter.data.id latter.children (staying former.children latter.children)

/-- The children that stay below a node that stays, each with what it was. -/
def keptPairs (former latter : Tree Node) : List (Tree Node × Tree Node) :=
  pairs (slots former.children latter.children) latter.children

theorem part_changesAt {part : Changes → List Record} (moving : Moving part)
    (previous current : Tree Node) : part (changesAt previous current) =
      part (moves previous current) ++
        (keptPairs previous current).flatMap fun pair => part (changesAt pair.1 pair.2) := by
  obtain ⟨now, children⟩ := current
  rw [changesAt, moving.append, moving.append, moving.still, List.nil_append,
    part_changesBelow moving.toAdditive]
  rfl

theorem parent_moves {part : Changes → List Record} (moving : Moving part)
    {former latter : Tree Node} {record : Record} (member : record ∈ part (moves former latter)) :
    record.parent? = some latter.data.id :=
  moving.own _ _ _ _ record member

theorem matched_keptPairs (former latter : Tree Node) :
    ∀ pair ∈ keptPairs former latter,
      Matched former.children latter.children pair.1 pair.2 :=
  related_of_mem_pairs (slots_matched former.children latter.children)

theorem keptPairs_sublist (former latter : Tree Node) :
    ((keptPairs former latter).map Prod.snd).Sublist latter.children :=
  map_snd_pairs (slots_matched former.children latter.children)

/-- What is moved is moved below a node of the current document. -/
theorem parent_inside {part : Changes → List Record} (moving : Moving part)
    {previous current : Tree Node} {record : Record}
    (member : record ∈ part (changesAt previous current)) :
    ∃ parent ∈ ids current, record.parent? = some parent := by
  induction current using Tree.children_induction generalizing previous with
  | step now children induction =>
      rw [part_changesAt moving, List.mem_append] at member
      rcases member with own | below
      · exact ⟨now.id, id_mem_ids _, parent_moves moving own⟩
      · obtain ⟨pair, kept, inside⟩ := List.mem_flatMap.mp below
        have present := (matched_keptPairs previous (.node now children) pair kept).present
        obtain ⟨parent, known, same⟩ := induction pair.2 present inside
        exact ⟨parent, (ids_child present).subset known, same⟩

/-- Two nodes are compared with each other: the roots, and the children that stay below nodes that
are compared. -/
inductive Paired : Tree Node → Tree Node → Tree Node → Tree Node → Prop
  | roots (previous current : Tree Node) : Paired previous current previous current
  | deeper {previous current before child former latter : Tree Node}
      (kept : (before, child) ∈ keptPairs previous current)
      (inner : Paired before child former latter) : Paired previous current former latter

namespace Paired

variable {previous current former latter : Tree Node}

theorem step {before child : Tree Node} (paired : Paired previous current former latter)
    (kept : (before, child) ∈ keptPairs former latter) : Paired previous current before child := by
  induction paired with
  | roots => exact .deeper kept (.roots before child)
  | deeper outer _ induction => exact .deeper outer (induction kept)

theorem inside (paired : Paired previous current former latter) :
    Tree.Inside former previous ∧ Tree.Inside latter current := by
  induction paired with
  | roots previous current => exact ⟨.itself previous, .itself current⟩
  | deeper kept _ induction =>
      have matched := matched_keptPairs _ _ _ kept
      exact ⟨induction.1.of_child matched.former, induction.2.of_child matched.present⟩

theorem alike (paired : Paired previous current former latter)
    (same : previous.data.id = current.data.id)
    (shape : previous.data.kind.sameShape current.data.kind) :
    former.data.id = latter.data.id ∧ former.data.kind.sameShape latter.data.kind := by
  induction paired with
  | roots => exact ⟨same, shape⟩
  | deeper kept _ induction =>
      have matched := matched_keptPairs _ _ _ kept
      exact induction matched.same matched.shape

end Paired

theorem root_apart {tree child : Tree Node} (distinct : (ids tree).Nodup)
    (member : child ∈ tree.children) : tree.data.id ∉ ids child := by
  cases tree with
  | node data children =>
      rw [ids_node, List.nodup_cons] at distinct
      exact fun inside => distinct.1 (List.mem_flatMap.mpr ⟨child, member, inside⟩)

/-- The other children that stay have nothing to do with what is below one of them. -/
theorem keptPairs_split {previous current before child : Tree Node}
    (distinct : (ids current).Nodup) (kept : (before, child) ∈ keptPairs previous current) :
    ∃ front back, keptPairs previous current = front ++ (before, child) :: back ∧
      ∀ pair ∈ front ++ back, ∀ id ∈ ids pair.2, id ∉ ids child := by
  obtain ⟨front, back, split⟩ := List.append_of_mem kept
  have listed := keptPairs_sublist previous current
  rw [split, List.map_append, List.map_cons] at listed
  have apart : ((front.map Prod.snd ++ child :: back.map Prod.snd).flatMap ids).Nodup := by
    cases current with
    | node now children =>
        rw [ids_node] at distinct
        exact (listed.flatMap ids).nodup (List.nodup_cons.mp distinct).2
  have regrouped := (List.perm_middle.flatMap_right ids).nodup_iff.mp apart
  rw [List.flatMap_cons, ← List.map_append] at regrouped
  refine ⟨front, back, split, fun pair member id inside here => ?_⟩
  exact (List.nodup_append.mp regrouped).2.2 id here id
    (List.mem_flatMap.mpr ⟨pair.2, List.mem_map_of_mem member, inside⟩) rfl

section Filter

variable {part : Changes → List Record} {previous current : Tree Node} {id : NodeId}

theorem filter_absent (moving : Moving part) (absent : id ∉ ids current) :
    (part (changesAt previous current)).filter (·.parent? = some id) = [] := by
  apply List.filter_eq_nil_iff.mpr
  intro record member
  obtain ⟨parent, known, same⟩ := parent_inside moving member
  rw [same]
  simp only [decide_eq_true_eq, Option.some.injEq]
  exact fun equal => absent (equal ▸ known)

theorem filter_moves (moving : Moving part) :
    (part (moves previous current)).filter (·.parent? = some id) =
      if current.data.id = id then part (moves previous current) else [] := by
  split
  case isTrue same =>
    apply List.filter_eq_self.mpr
    intro record member
    simp [parent_moves moving member, same]
  case isFalse different =>
    apply List.filter_eq_nil_iff.mpr
    intro record member
    simpa [parent_moves moving member] using different

/-- All that is moved below a node comes from the comparison of its own children. -/
theorem filter_paired (moving : Moving part) {former latter : Tree Node}
    (paired : Paired previous current former latter) (distinct : (ids current).Nodup) :
    (part (changesAt previous current)).filter (·.parent? = some latter.data.id) =
      part (moves former latter) := by
  induction paired with
  | roots previous current =>
      have below : ∀ pair ∈ keptPairs previous current, current.data.id ∉ ids pair.2 := by
        intro pair kept inside
        exact root_apart distinct (matched_keptPairs _ _ pair kept).present inside
      have others : ((keptPairs previous current).flatMap fun pair =>
          (part (changesAt pair.1 pair.2)).filter (·.parent? = some current.data.id)) = [] :=
        List.flatMap_eq_nil_iff.mpr fun pair kept => filter_absent moving (below pair kept)
      rw [part_changesAt moving, List.filter_append, filter_moves moving, if_pos rfl,
        List.filter_flatMap, others, List.append_nil]
  | @deeper previous current before child former latter kept inner induction =>
      have present := (matched_keptPairs _ _ _ kept).present
      obtain ⟨front, back, split, others⟩ := keptPairs_split distinct kept
      have known : latter.data.id ∈ ids child := (ids_inside inner.inside.2).subset (id_mem_ids _)
      have beside : ∀ pairs, pairs ⊆ front ++ back → (pairs.flatMap fun pair =>
          (part (changesAt pair.1 pair.2)).filter (·.parent? = some latter.data.id)) = [] := by
        intro pairs some
        apply List.flatMap_eq_nil_iff.mpr
        intro pair member
        exact filter_absent moving fun inside => others pair (some member) _ inside known
      have unlike : latter.data.id ≠ current.data.id := by
        intro same
        exact root_apart distinct present (same ▸ known)
      rw [part_changesAt moving, List.filter_append, filter_moves moving, if_neg unlike.symm,
        List.nil_append, split, List.filter_flatMap, List.flatMap_append, List.flatMap_cons,
        beside front (List.subset_append_left front back),
        beside back (List.subset_append_right front back), List.nil_append, List.append_nil]
      exact induction ((ids_inside (.of_child present (.itself child))).nodup distinct)

/-- The records that give a node its children or take them away. -/
theorem filter_records {records : List Record} (compared : changes previous current = .ok records)
    {former latter : Tree Node} (paired : Paired previous current former latter)
    (distinct : (ids current).Nodup) :
    records.filter (·.parent? = some latter.data.id) =
      (moves former latter).removes ++ (moves former latter).adds := by
  have sorted := sorted_changesAt previous current
  have others : ∀ {rest : List Record} {kind : Act}, (∀ record ∈ rest, act record = kind) →
      kind = .text ∨ kind = .attributes →
      rest.filter (·.parent? = some latter.data.id) = [] := by
    intro rest kind all revising
    apply List.filter_eq_nil_iff.mpr
    intro record member
    have here := all record member
    cases record with
    | add => simp [← here, act] at revising
    | remove => simp [← here, act] at revising
    | text => simp [Record.parent?]
    | attributes => simp [Record.parent?]
  rw [← (changes_ok compared).2.2, Changes.records, List.filter_append, List.filter_append,
    List.filter_append, filter_paired moving_removes paired distinct,
    filter_paired moving_adds paired distinct, others sorted.texts (.inl rfl),
    others sorted.attributes (.inr rfl), List.append_nil, List.append_nil]

end Filter

end Document

end SessionReplay
