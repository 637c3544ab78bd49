import Mathlib.Order.Bounds.Defs
import SessionReplay.Proofs.Document.Agreement
import SessionReplay.Proofs.Document.Longest
import SessionReplay.Proofs.Document.Pairing
import SessionReplay.Proofs.Tree.Edit

/-!
As few children as possible come and go. The children that stay below a node that stays are a
longest common subsequence of what it had and what it has, where a former child counts as the same
as a current one when it has the same id and the same shape. All other former children are removed
and all other current ones are added, each of them once.
-/

namespace SessionReplay.Document

open LongestRun

/-- A common subsequence of two lists of siblings, as the pairs of nodes that count as the same. -/
structure Common (formers children : List (Tree Node)) (pairs : List (Tree Node × Tree Node)) :
    Prop where
  formers : (pairs.map Prod.fst).Sublist formers
  children : (pairs.map Prod.snd).Sublist children
  same : ∀ pair ∈ pairs, pair.1.data.id = pair.2.data.id
  shape : ∀ pair ∈ pairs, pair.1.data.kind.sameShape pair.2.data.kind

section Siblings

variable {formers children : List (Tree Node)}

/-- A child that can stay as one of the former siblings is looked for in its place. -/
theorem counterpart_of_alike (distinct : (formers.map (·.data.id)).Nodup) {before child : Tree Node}
    {position : Nat} (there : formers[position]? = some before)
    (same : before.data.id = child.data.id)
    (shape : before.data.kind.sameShape child.data.kind) :
    counterpart? formers child = some position := by
  have own := counterpart_self distinct there
  unfold counterpart? at own ⊢
  rw [← same]
  split at own
  case h_1 found index search =>
    obtain ⟨-, place⟩ := Option.ite_none_right_eq_some.mp own
    obtain rfl := Option.some.inj place
    have listed := List.mem_zipIdx_iff_getElem?.mp
      (List.mem_reverse.mp (List.mem_of_find?_eq_some search))
    obtain rfl : found = before := Option.some.inj (listed.symm.trans there)
    exact if_pos shape
  case h_2 => contradiction

/-- Former siblings in their order have rising positions. -/
theorem rising_positions_of_sublist (distinct : (formers.map (·.data.id)).Nodup)
    {some : List (Tree Node)} (inside : some.Sublist formers) :
    some.Pairwise fun one other => ∀ i j : Nat, formers[i]? = .some one →
      formers[j]? = .some other → i < j := by
  have all : formers.Pairwise fun one other => ∀ i j : Nat, formers[i]? = .some one →
      formers[j]? = .some other → i < j := by
    have positions : ∀ {first second : Nat} (inside : first < formers.length),
        formers[second]? = .some formers[first] → second = first := by
      intro first second inside there
      have images :=
    List.getElem?_inj (i := first) (j := second) (by rwa [List.length_map]) distinct
      apply (images.mp ?_).symm
      rw [List.getElem?_map, List.getElem?_map, there, List.getElem?_eq_getElem inside]
    apply List.pairwise_iff_getElem.mpr
    intro first second firstInside secondInside order i j one other
    rw [positions firstInside one, positions secondInside other]
    exact order
  exact all.sublist inside

theorem length_slots :
    ((slots formers children).filterMap id).length =
      ((staying formers children).filterMap id).length := by
  have found : (slots formers children).filterMap id =
      ((staying formers children).filterMap id).filterMap (formers[·]?) := by
    rw [slots, List.filterMap_map, List.filterMap_filterMap]
    rfl
  rw [found, List.length_filterMap_eq_countP, List.countP_eq_length]
  intro position member
  obtain ⟨entry, stays, rfl⟩ := List.mem_filterMap.mp member
  rw [List.getElem?_eq_getElem (inside_of_staying stays)]
  rfl

/-- No common subsequence is longer than the children that stay. -/
theorem length_le_staying (distinct : (formers.map (·.data.id)).Nodup)
    {pairs : List (Tree Node × Tree Node)} (common : Common formers children pairs) :
    pairs.length ≤ ((staying formers children).filterMap id).length := by
  have found : ∀ pair ∈ pairs, ∃ position, formers[position]? = some pair.1 ∧
      counterpart? formers pair.2 = some position := by
    intro pair member
    have listed : pair.1 ∈ formers := common.formers.subset (List.mem_map_of_mem member)
    obtain ⟨position, there⟩ := List.mem_iff_getElem?.mp listed
    exact ⟨position, there,
      counterpart_of_alike distinct there (common.same pair member) (common.shape pair member)⟩
  have positions : ((pairs.map Prod.snd).filterMap (counterpart? formers)).Sublist
      ((children.map (counterpart? formers)).filterMap id) := by
    rw [List.filterMap_map (f := counterpart? formers)]
    exact common.children.filterMap _
  have rising : ((pairs.map Prod.snd).filterMap (counterpart? formers)).Pairwise (· < ·) := by
    have order := List.pairwise_map.mp (rising_positions_of_sublist distinct common.formers)
    rw [List.filterMap_map, List.pairwise_filterMap]
    apply List.Pairwise.imp_of_mem _ order
    intro one other oneMember otherMember above first firstFound second secondFound
    obtain ⟨i, oneThere, oneFound⟩ := found one oneMember
    obtain ⟨j, otherThere, otherFound⟩ := found other otherMember
    obtain rfl := Option.some.inj (oneFound.symm.trans firstFound)
    obtain rfl := Option.some.inj (otherFound.symm.trans secondFound)
    exact above i j oneThere otherThere
  have all : ((pairs.map Prod.snd).filterMap (counterpart? formers)).length = pairs.length := by
    rw [List.filterMap_map, List.length_filterMap_eq_countP, List.countP_eq_length]
    intro pair member
    obtain ⟨position, -, counterpart⟩ := found pair member
    simp [counterpart]
  rw [staying, reduceOption_keepMasked, length_zip_mask, ← all]
  exact length_le_positions positions rising

theorem length_removals (distinct : (formers.map (·.data.id)).Nodup) (parent : NodeId) :
    (removals parent formers (staying formers children)).length +
      ((staying formers children).filterMap id).length = formers.length := by
  have gone := leaving_sublist formers (staying formers children)
  have left := congrArg List.length (filter_leaving children distinct)
  have removed : ((formers.map (·.data.id)).filter
      (· ∈ leaving formers (staying formers children))).Perm
      (leaving formers (staying formers children)) := by
    apply (List.perm_ext_iff_of_nodup (distinct.filter _) (gone.nodup distinct)).mpr
    intro id
    rw [List.mem_filter, decide_eq_true_eq, and_iff_right_iff_imp]
    exact fun leaves => gone.subset leaves
  have split := List.length_eq_length_filter_add (l := formers)
    fun child => child.data.id ∈ leaving formers (staying formers children)
  have count := removed.length_eq
  rw [List.filter_map, List.length_map] at count
  simp only [← decide_not] at split
  rw [removals_eq_map_leaving, List.length_map, split, ← length_slots, ← left, ← count]
  rfl

theorem length_additions (parent : NodeId) {stay : List (Option Nat)}
    (length : stay.length = children.length) :
    (additions parent children stay).length + (stay.filterMap id).length = children.length := by
  induction children generalizing stay with
  | nil => rw [List.eq_nil_of_length_eq_zero length]; rfl
  | cons child children induction =>
      rcases stay with _ | ⟨_ | position, stay⟩
      · contradiction
      · have rest := induction (Nat.succ.inj length)
        rw [additions, List.length_append, List.filterMap_cons_none rfl]
        simp only [List.length_cons, List.length_nil]
        omega
      · have rest := induction (Nat.succ.inj length)
        rw [additions, List.filterMap_cons_some (f := id) rfl, List.length_cons, List.length_cons]
        omega

end Siblings

/-- A child of a node that stays is kept when the records do not remove it and the node still has a
child of that id. -/
structure Keeps (records : List Record) (former latter before child : Tree Node) : Prop where
  had : before ∈ former.children
  has : child ∈ latter.children
  same : before.data.id = child.data.id
  stays : Record.remove former.data.id before.data.id ∉ records

/-- The nodes that stay in place: the two roots, and the children that are kept below nodes that
stay in place. -/
inductive InPlace (records : List Record) (previous current : Tree Node) :
    Tree Node → Tree Node → Prop
  | roots : InPlace records previous current previous current
  | child {former latter before child : Tree Node}
      (above : InPlace records previous current former latter)
      (keeps : Keeps records former latter before child) :
      InPlace records previous current before child

/-- The length of a longest common subsequence of two lists of siblings. -/
def IsCommonLength (formers children : List (Tree Node)) (length : Nat) : Prop :=
  IsGreatest {count | ∃ pairs, Common formers children pairs ∧ pairs.length = count} length

/-- The children that stay between two nodes are a longest common subsequence of their children,
and no others are removed or added. -/
structure FewestMoves (records : List Record) (former latter : Tree Node) (length : Nat)
    (stay : List (Tree Node × Tree Node)) : Prop where
  longest : IsCommonLength former.children latter.children length
  common : Common former.children latter.children stay
  count : stay.length = length
  kept : ∀ before child, (before, child) ∈ stay ↔ Keeps records former latter before child
  removes : (Record.count (records.filter (·.parent? = some latter.data.id))).removes + length =
    former.children.length
  adds : (Record.count (records.filter (·.parent? = some latter.data.id))).adds + length =
    latter.children.length

section Kept

variable {previous current former latter : Tree Node}

theorem children_distinct {tree : Tree Node} (distinct : (ids tree).Nodup) :
    (tree.children.map (·.data.id)).Nodup :=
  Tree.child_keys_nodup distinct

theorem common_keptPairs (distinct : (ids former).Nodup) :
    Common former.children latter.children (keptPairs former latter) where
  formers := by
    have left := filter_leaving latter.children (children_distinct distinct)
    rw [keptPairs, map_fst_pairs (slots_matched former.children latter.children), ← left]
    exact List.filter_sublist
  children := keptPairs_sublist former latter
  same pair kept := (matched_keptPairs former latter pair kept).same
  shape pair kept := (matched_keptPairs former latter pair kept).shape

theorem length_keptPairs (former latter : Tree Node) : (keptPairs former latter).length =
    ((staying former.children latter.children).filterMap id).length := by
  rw [← length_slots, ← map_fst_pairs (slots_matched former.children latter.children),
    List.length_map]
  rfl

theorem getElem?_slots {formers children : List (Tree Node)} {index : Nat} {before : Tree Node} :
    (slots formers children)[index]? = some (some before) ↔
      ∃ position, (staying formers children)[index]? = some (some position) ∧
        formers[position]? = some before := by
  rw [slots, List.getElem?_map, Option.map_eq_some_iff]
  constructor
  · rintro ⟨_ | position, kept, there⟩
    · contradiction
    · exact ⟨position, kept, there⟩
  · rintro ⟨position, kept, there⟩
    exact ⟨some position, kept, there⟩

/-- A child is removed from a node that stays when it is not one of those that stay below it. -/
theorem mem_removed_iff {records : List Record} (compared : changes previous current = .ok records)
    (distinct : (ids current).Nodup) (paired : Paired previous current former latter)
    (id : NodeId) : Record.remove former.data.id id ∈ records ↔
      id ∈ leaving former.children (staying former.children latter.children) := by
  obtain ⟨same, shape, -⟩ := changes_ok compared
  have alike := (paired.alike same shape).1
  have own : Record.remove former.data.id id ∈ records ↔
      Record.remove former.data.id id ∈ records.filter (·.parent? = some latter.data.id) := by
    simp [Record.parent?, alike]
  rw [own, filter_records compared paired distinct, moves, removals_eq_map_leaving,
    List.mem_append, List.mem_map]
  constructor
  · rintro (⟨gone, leaves, removed⟩ | added)
    · obtain ⟨-, rfl⟩ := Record.remove.inj removed
      exact leaves
    · obtain ⟨next, child, -, other⟩ := mem_additions added
      contradiction
  · intro leaves
    exact .inl ⟨id, leaves, by rw [alike]⟩

theorem keeps_iff {records : List Record} (compared : changes previous current = .ok records)
    (previousDistinct : (ids previous).Nodup) (currentDistinct : (ids current).Nodup)
    (paired : Paired previous current former latter) (before child : Tree Node) :
    (before, child) ∈ keptPairs former latter ↔ Keeps records former latter before child := by
  have formers := children_distinct ((ids_inside paired.inside.1).nodup previousDistinct)
  have children := children_distinct ((ids_inside paired.inside.2).nodup currentDistinct)
  have removed := mem_removed_iff compared currentDistinct paired before.data.id
  constructor
  · intro kept
    have matched := matched_keptPairs former latter _ kept
    obtain ⟨index, slot, -⟩ := mem_pairs_iff.mp kept
    obtain ⟨position, stays, there⟩ := getElem?_slots.mp slot
    refine ⟨matched.former, matched.present, matched.same, ?_⟩
    rw [removed]
    exact (not_mem_leaving_iff _ formers there).mpr (List.mem_of_getElem? stays)
  · intro keeps
    have remains := keeps.stays
    obtain ⟨position, there⟩ := List.mem_iff_getElem?.mp keeps.had
    rw [removed, not_mem_leaving_iff _ formers there] at remains
    obtain ⟨index, stays⟩ := List.mem_iff_getElem?.mp remains
    have inside : index < latter.children.length := by
      rw [← staying_length former.children latter.children]
      exact (List.getElem?_eq_some_iff.mp stays).1
    have kept : (before, latter.children[index]) ∈ keptPairs former latter :=
      mem_pairs_iff.mpr
        ⟨index, getElem?_slots.mpr ⟨position, stays, there⟩, List.getElem?_eq_getElem inside⟩
    have matched := matched_keptPairs former latter _ kept
    have only : latter.children[index] = child :=
      List.inj_on_of_nodup_map children matched.present keeps.has
        (matched.same.symm.trans keeps.same)
    rwa [only] at kept

theorem paired_of_inPlace {records : List Record}
    (compared : changes previous current = .ok records)
    (previousDistinct : (ids previous).Nodup) (currentDistinct : (ids current).Nodup)
    (place : InPlace records previous current former latter) :
    Paired previous current former latter := by
  induction place with
  | roots => exact .roots previous current
  | child _ keeps induction =>
      exact induction.step
        ((keeps_iff compared previousDistinct currentDistinct induction _ _).mpr keeps)

theorem count_moves (former latter : Tree Node) :
    (Record.count ((moves former latter).removes ++ (moves former latter).adds)).removes =
        (moves former latter).removes.length ∧
      (Record.count ((moves former latter).removes ++ (moves former latter).adds)).adds =
        (moves former latter).adds.length := by
  have sorted : Sorted (moves former latter) := sorted_moves _ _ _ _
  simp only [Record.count, List.countP_eq_length_filter, List.filter_append,
    filter_act isRemove_eq sorted.removes, filter_act isRemove_eq sorted.adds,
    filter_act isAdd_eq sorted.removes, filter_act isAdd_eq sorted.adds]
  simp

end Kept

/-- Below every two nodes that stay in place as few children as possible come and go. -/
theorem fewest_moves {previous current : Tree Node} {records : List Record}
    (compared : changes previous current = .ok records) (previousDistinct : (ids previous).Nodup)
    (currentDistinct : (ids current).Nodup) {former latter : Tree Node}
    (place : InPlace records previous current former latter) :
    ∃ length stay, FewestMoves records former latter length stay := by
  have paired := paired_of_inPlace compared previousDistinct currentDistinct place
  have formerDistinct := (ids_inside paired.inside.1).nodup previousDistinct
  have siblings := children_distinct formerDistinct
  have common : Common former.children latter.children (keptPairs former latter) :=
    common_keptPairs formerDistinct
  have counted := count_moves former latter
  refine ⟨_, keptPairs former latter, ⟨⟨_, common, rfl⟩, ?_⟩, common, rfl,
    keeps_iff compared previousDistinct currentDistinct paired, ?_, ?_⟩
  · rintro _ ⟨other, known, rfl⟩
    rw [length_keptPairs]
    exact length_le_staying siblings known
  · rw [filter_records compared paired currentDistinct, counted.1, length_keptPairs]
    exact length_removals siblings _
  · rw [filter_records compared paired currentDistinct, counted.2, length_keptPairs]
    exact length_additions _ (staying_length _ _)

/-- A list with these items. -/
def listed (items : List NodeId) : Tree Node :=
  .node { id := ⟨2⟩, kind := .element { tag := .div } }
    (items.map fun id => .node { id, kind := .element { tag := .div } } [])

/-- A page with one list on it. -/
def paged (items : List NodeId) : Tree Node :=
  .node { id := ⟨1⟩, kind := .document } [listed items]

/-- Of four items the last is the first now, one is gone, and another one is new. -/
theorem fewest_moves_list :
    ∃ records, changes (paged [⟨3⟩, ⟨4⟩, ⟨5⟩, ⟨6⟩]) (paged [⟨6⟩, ⟨3⟩, ⟨7⟩, ⟨5⟩]) = .ok records ∧
      InPlace records (paged [⟨3⟩, ⟨4⟩, ⟨5⟩, ⟨6⟩]) (paged [⟨6⟩, ⟨3⟩, ⟨7⟩, ⟨5⟩])
        (listed [⟨3⟩, ⟨4⟩, ⟨5⟩, ⟨6⟩]) (listed [⟨6⟩, ⟨3⟩, ⟨7⟩, ⟨5⟩]) ∧
      ∃ length stay, FewestMoves records (listed [⟨3⟩, ⟨4⟩, ⟨5⟩, ⟨6⟩])
        (listed [⟨6⟩, ⟨3⟩, ⟨7⟩, ⟨5⟩]) length stay := by
  have compared : changes (paged [⟨3⟩, ⟨4⟩, ⟨5⟩, ⟨6⟩]) (paged [⟨6⟩, ⟨3⟩, ⟨7⟩, ⟨5⟩]) =
      .ok (changesAt (paged [⟨3⟩, ⟨4⟩, ⟨5⟩, ⟨6⟩]) (paged [⟨6⟩, ⟨3⟩, ⟨7⟩, ⟨5⟩])).records := rfl
  have previousDistinct : (ids (paged [⟨3⟩, ⟨4⟩, ⟨5⟩, ⟨6⟩])).Nodup := by decide
  have currentDistinct : (ids (paged [⟨6⟩, ⟨3⟩, ⟨7⟩, ⟨5⟩])).Nodup := by decide
  have kept : (listed [⟨3⟩, ⟨4⟩, ⟨5⟩, ⟨6⟩], listed [⟨6⟩, ⟨3⟩, ⟨7⟩, ⟨5⟩]) ∈
      keptPairs (paged [⟨3⟩, ⟨4⟩, ⟨5⟩, ⟨6⟩]) (paged [⟨6⟩, ⟨3⟩, ⟨7⟩, ⟨5⟩]) :=
    List.mem_singleton.mpr rfl
  have place := InPlace.child .roots
    ((keeps_iff compared previousDistinct currentDistinct (.roots _ _) _ _).mp kept)
  exact ⟨_, compared, place, fewest_moves compared previousDistinct currentDistinct place⟩

end SessionReplay.Document
