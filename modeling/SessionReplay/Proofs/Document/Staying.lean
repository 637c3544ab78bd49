import SessionReplay.Document.Comparison
import SessionReplay.Proofs.Tree.Shape
import Mathlib.Data.List.GetD
import Mathlib.Data.List.Nodup
import Mathlib.Data.List.Pairwise

/-!
The children that stay in place when two lists of siblings are compared. Those that are kept in
the longest run stand in the same order before and after, so that taking the others out of the
former list leaves exactly the former children of the ones that stay.
-/

namespace SessionReplay

namespace LongestRun

/-- From the last position to the first, positions and values fall. -/
def Falling (values : List Nat) (positions : List Nat) : Prop :=
  positions.Pairwise fun later earlier =>
    earlier < later ∧ values.getD earlier 0 < values.getD later 0

/-- What is known of a run when the values before `seen` have been looked at. -/
structure Sound (values : List Nat) (seen : Nat) (run : Run) : Prop where
  falling : Falling values run.positions
  value : values.getD run.position 0 = run.value
  known : ∀ position ∈ run.positions, position < seen

theorem sound_mono {values : List Nat} {seen : Nat} {run : Run} (sound : Sound values seen run) :
    Sound values (seen + 1) run :=
  ⟨sound.falling, sound.value, fun position member =>
    Nat.lt_succ_of_lt (sound.known position member)⟩

/-- The next value behind a run whose values are all less. -/
theorem sound_extend {values : List Nat} {seen value : Nat} {shorter : List Nat}
    (here : values.getD seen 0 = value) (falling : Falling values shorter)
    (below : ∀ position ∈ shorter, position < seen ∧ values.getD position 0 < value) :
    Sound values (seen + 1) ⟨seen, value, shorter⟩ := by
  refine ⟨List.pairwise_cons.mpr ⟨fun position member => ?_, falling⟩, here, ?_⟩
  · rw [here]
    exact below position member
  · intro position member
    rcases List.mem_cons.mp member with last | earlier
    · exact Nat.lt_succ_of_le (Nat.le_of_eq last)
    · exact Nat.lt_succ_of_lt (below position earlier).1

theorem Sound.below {values : List Nat} {seen value : Nat} {run : Run}
    (sound : Sound values seen run) (less : run.value < value) :
    ∀ position ∈ run.positions, position < seen ∧ values.getD position 0 < value := by
  intro position member
  refine ⟨sound.known position member, ?_⟩
  rcases List.mem_cons.mp member with last | earlier
  · rw [last, sound.value]
    exact less
  · have step := ((List.pairwise_cons.mp sound.falling).1 position earlier).2
    rw [sound.value] at step
    exact Nat.lt_trans step less

theorem sound_place {values : List Nat} {seen value : Nat} {shorter : List Nat} {runs : List Run}
    (sound : ∀ run ∈ runs, Sound values seen run) (here : values.getD seen 0 = value)
    (falling : Falling values shorter)
    (below : ∀ position ∈ shorter, position < seen ∧ values.getD position 0 < value) :
    ∀ run ∈ place seen value shorter runs, Sound values (seen + 1) run := by
  induction runs generalizing shorter with
  | nil =>
      intro run member
      rw [List.mem_singleton.mp member]
      exact sound_extend here falling below
  | cons first runs induction =>
      obtain ⟨known, others⟩ := List.forall_mem_cons.mp sound
      simp only [place]
      split
      case isTrue less =>
        exact List.forall_mem_cons.mpr
          ⟨sound_mono known, induction others known.falling (known.below less)⟩
      case isFalse =>
        exact List.forall_mem_cons.mpr
          ⟨sound_extend here falling below, fun run member => sound_mono (others run member)⟩

theorem sound_fold (passed rest : List Nat) (runs : List Run)
    (sound : ∀ run ∈ runs, Sound (passed ++ rest) passed.length run) :
    ∀ run ∈ (rest.zipIdx passed.length).foldl
      (fun runs (value, position) => place position value [] runs) runs,
      Sound (passed ++ rest) (passed ++ rest).length run := by
  induction rest generalizing passed runs with
  | nil => simpa using sound
  | cons value rest induction =>
      have here : (passed ++ value :: rest).getD passed.length 0 = value := by simp
      have next := sound_place sound here List.Pairwise.nil (by simp)
      have regrouped : passed ++ value :: rest = (passed ++ [value]) ++ rest := by simp
      rw [List.zipIdx_cons, List.foldl_cons]
      have count : passed.length + 1 = (passed ++ [value]).length := by simp
      rw [regrouped] at next ⊢
      rw [count] at next ⊢
      exact induction _ _ next

theorem sound_runs (values : List Nat) : ∀ run ∈ runs values, Sound values values.length run :=
  sound_fold [] values [] (by simp)

theorem falling_positions (values : List Nat) : Falling values (positions values) := by
  unfold positions
  split
  case h_1 run last => exact (sound_runs values run (List.mem_of_getLast? last)).falling
  case h_2 => exact List.Pairwise.nil

/-- The values that are kept rise from left to right. -/
theorem rising_positions {values : List Nat} {first second : Nat} (order : first < second)
    (firstKept : first ∈ positions values) (secondKept : second ∈ positions values) :
    values.getD first 0 < values.getD second 0 := by
  let falls (later earlier : Nat) : Prop :=
    earlier < later ∧ values.getD earlier 0 < values.getD later 0
  have symmetric : Std.Symm fun one other => falls one other ∨ falls other one :=
    ⟨fun _ _ => Or.symm⟩
  have either : (positions values).Pairwise fun one other => falls one other ∨ falls other one :=
    (falling_positions values).imp .inl
  rcases either.forall secondKept firstKept (Nat.ne_of_gt order) with known | backward
  · exact known.2
  · exact absurd order (Nat.lt_asymm backward.1)

end LongestRun

namespace Document

open LongestRun

theorem keepMasked_length (items : List (Option Nat)) (mask : List Bool) :
    (keepMasked items mask).length = items.length := by
  fun_induction keepMasked items mask <;> simp_all

theorem mem_zip_keepMasked {items : List (Option Nat)} {mask : List Bool} {index position : Nat}
    (kept : (keepMasked items mask)[index]? = some (some position)) :
    items[index]? = some (some position) := by
  fun_induction keepMasked items mask generalizing index <;> cases index <;> simp_all

/-- What is kept, without the gaps. -/
theorem reduceOption_keepMasked (items : List (Option Nat)) (mask : List Bool) :
    (keepMasked items mask).filterMap id =
      ((items.filterMap id).zip mask).filterMap fun (position, keep) =>
        if keep then some position else none := by
  fun_induction keepMasked items mask with
  | case1 => rfl
  | case2 mask items induction => simpa using induction
  | case3 position items mask induction => simpa using induction
  | case4 position items mask induction => simpa using induction
  | case5 position items induction => simpa using induction

theorem rising_zip_mask (values : List Nat) :
    ((values.zip (mask values)).filterMap fun (value, keep) =>
      if keep then some value else none).Pairwise (· < ·) := by
  refine List.pairwise_filterMap.mpr (List.pairwise_iff_getElem.mpr ?_)
  intro first second firstBound secondBound order one oneKept other otherKept
  have firstInside : first < values.length := by simpa [mask_length] using firstBound
  have secondInside : second < values.length := by simpa [mask_length] using secondBound
  simp only [List.getElem_zip, mask, List.getElem_map, List.getElem_range,
    List.contains_iff_mem, Option.ite_none_right_eq_some, Option.some.injEq] at oneKept otherKept
  obtain ⟨firstKept, rfl⟩ := oneKept
  obtain ⟨secondKept, rfl⟩ := otherKept
  have rising := rising_positions order firstKept secondKept
  rwa [List.getD_eq_getElem _ _ firstInside, List.getD_eq_getElem _ _ secondInside] at rising

/-- The former positions of the children that stay rise from left to right. -/
theorem rising_staying (previous current : List (Tree Node)) :
    ((staying previous current).filterMap id).Pairwise (· < ·) := by
  rw [staying, reduceOption_keepMasked]
  exact rising_zip_mask _

/-- The former trees of the children that stay, each in the place of the child. -/
def slots (previous current : List (Tree Node)) : List (Option (Tree Node)) :=
  (staying previous current).map fun position => position.bind (previous[·]?)

theorem counterpart_spec {previous : List (Tree Node)} {child : Tree Node} {position : Nat}
    (found : counterpart? previous child = some position) :
    ∃ before, previous[position]? = some before ∧ before.data.id = child.data.id ∧
      before.data.kind.sameShape child.data.kind := by
  unfold counterpart? at found
  split at found
  case h_1 before index search =>
    obtain ⟨shape, place⟩ := Option.ite_none_right_eq_some.mp found
    obtain rfl := Option.some.inj place
    have member := List.mem_reverse.mp (List.mem_of_find?_eq_some search)
    have same := List.find?_some search
    exact ⟨before, List.mem_zipIdx_iff_getElem?.mp member, by simpa using same, shape⟩
  case h_2 => contradiction

/-- A former sibling and the child that stays as it. -/
structure Matched (previous current : List (Tree Node)) (before child : Tree Node) : Prop where
  former : before ∈ previous
  present : child ∈ current
  same : before.data.id = child.data.id
  shape : before.data.kind.sameShape child.data.kind

/-- Children beside their former trees. Each child that has one is related to it. -/
inductive Beside (related : Tree Node → Tree Node → Prop) :
    List (Option (Tree Node)) → List (Tree Node) → Prop
  | nil : Beside related [] []
  | fresh {slots : List (Option (Tree Node))} {children : List (Tree Node)} (child : Tree Node)
      (rest : Beside related slots children) : Beside related (none :: slots) (child :: children)
  | kept {slots : List (Option (Tree Node))} {children : List (Tree Node)}
      {before child : Tree Node} (first : related before child)
      (rest : Beside related slots children) :
      Beside related (some before :: slots) (child :: children)

namespace Beside

variable {related : Tree Node → Tree Node → Prop} {slots : List (Option (Tree Node))}
variable {children : List (Tree Node)}

theorem imp {other : Tree Node → Tree Node → Prop} (beside : Beside related slots children)
    (implies : ∀ before child, related before child → other before child) :
    Beside other slots children := by
  induction beside with
  | nil => exact .nil
  | fresh child _ induction => exact .fresh child induction
  | kept first _ induction => exact .kept (implies _ _ first) induction

theorem length_eq (beside : Beside related slots children) :
    slots.length = children.length := by
  induction beside with
  | nil => rfl
  | fresh child _ induction => exact congrArg Nat.succ induction
  | kept first _ induction => exact congrArg Nat.succ induction

theorem of_getElem? (length : slots.length = children.length)
    (pairs : ∀ (index : Nat) before child, slots[index]? = some (some before) →
      children[index]? = some child → related before child) : Beside related slots children := by
  induction slots generalizing children with
  | nil =>
      rw [List.eq_nil_of_length_eq_zero length.symm]
      exact .nil
  | cons slot slots induction =>
      cases children with
      | nil => contradiction
      | cons child children =>
          have rest := induction (Nat.succ.inj length) fun index => pairs (index + 1)
          cases slot with
          | none => exact .fresh child rest
          | some before => exact .kept (pairs 0 before child rfl rfl) rest

end Beside

theorem slots_matched (previous current : List (Tree Node)) :
    Beside (Matched previous current) (slots previous current) current := by
  apply Beside.of_getElem?
  · simp [slots, staying, keepMasked_length]
  · intro index before child filled there
    rw [slots, List.getElem?_map] at filled
    obtain ⟨_ | position, kept, place⟩ := Option.map_eq_some_iff.mp filled
    · contradiction
    · have found := mem_zip_keepMasked kept
      rw [List.getElem?_map, there] at found
      obtain ⟨other, found, same, shape⟩ := counterpart_spec (Option.some.inj found)
      obtain rfl : other = before := Option.some.inj (found.symm.trans place)
      exact ⟨List.mem_of_getElem? found, List.mem_of_getElem? there, same, shape⟩

theorem filterMap_zipIdx_of_rising {β : Type u} (items : List β) (offset : Nat)
    {positions : List Nat} (rising : positions.Pairwise (· < ·))
    (bounded : ∀ position ∈ positions, offset ≤ position) :
    (items.zipIdx offset).filterMap (fun (item, index) =>
      if index ∈ positions then some item else none) =
      positions.filterMap fun position => items[position - offset]? := by
  induction items generalizing offset positions with
  | nil => simp
  | cons item items induction =>
      cases positions with
      | nil => simp
      | cons first rest =>
          obtain ⟨above, risingRest⟩ := List.pairwise_cons.mp rising
          have later : ∀ position ∈ rest, offset + 1 ≤ position := fun position member =>
            Nat.lt_of_le_of_lt (bounded first (by simp)) (above position member)
          by_cases here : first = offset
          · subst here
            have skip : (items.zipIdx (first + 1)).filterMap (fun (item, index) =>
                if index ∈ first :: rest then some item else none) =
                (items.zipIdx (first + 1)).filterMap (fun (item, index) =>
                  if index ∈ rest then some item else none) := by
              apply List.filterMap_congr
              intro entry member
              have past := List.le_snd_of_mem_zipIdx member
              have other : entry.2 ≠ first := by omega
              simp [other]
            simp only [List.zipIdx_cons, List.filterMap_cons, List.mem_cons_self, if_true]
            rw [skip, induction (first + 1) risingRest later]
            simp only [Nat.sub_self, List.getElem?_cons_zero]
            refine congrArg _ (List.filterMap_congr fun position member => ?_)
            have past := later position member
            rw [show position - first = position - (first + 1) + 1 by omega]
            rfl
          · have past : offset + 1 ≤ first := by
              have bound := bounded first (by simp)
              omega
            have every : ∀ position ∈ first :: rest, offset + 1 ≤ position :=
              List.forall_mem_cons.mpr ⟨past, later⟩
            have absent : offset ∉ first :: rest := fun member => by
              have bound := every offset member
              omega
            simp only [List.zipIdx_cons, List.filterMap_cons (a := (item, offset)), if_neg absent]
            rw [induction (offset + 1) rising every]
            apply List.filterMap_congr
            intro position member
            have bound := every position member
            rw [show position - offset = position - (offset + 1) + 1 by omega]
            rfl

/-- The former siblings that do not stay. -/
def leaving (previous : List (Tree Node)) (stay : List (Option Nat)) : List NodeId :=
  previous.zipIdx.filterMap fun (child, position) =>
    if stay.contains (some position) then none else some child.data.id

theorem removals_eq_map_leaving (parent : NodeId) (previous : List (Tree Node))
    (stay : List (Option Nat)) :
    removals parent previous stay = (leaving previous stay).map (Record.remove parent) := by
  simp only [removals, leaving, List.map_filterMap, List.contains_iff_mem]
  apply List.filterMap_congr
  intro entry _
  split <;> rfl

theorem leaving_sublist (previous : List (Tree Node)) (stay : List (Option Nat)) :
    (leaving previous stay).Sublist (previous.map (·.data.id)) := by
  have general : ∀ offset, ((previous.zipIdx offset).filterMap fun (child, position) =>
      if stay.contains (some position) then none else some child.data.id).Sublist
      (previous.map (·.data.id)) := by
    induction previous with
    | nil => simp
    | cons first previous induction =>
        intro offset
        by_cases stays : stay.contains (some offset)
        · simp only [List.zipIdx_cons, List.filterMap_cons, if_pos stays]
          exact (induction (offset + 1)).cons _
        · simp only [List.zipIdx_cons, List.filterMap_cons, if_neg stays]
          exact (induction (offset + 1)).cons_cons _
  exact general 0

theorem not_mem_leaving_iff {previous : List (Tree Node)} (stay : List (Option Nat))
    (distinct : (previous.map (·.data.id)).Nodup) {child : Tree Node} {position : Nat}
    (place : previous[position]? = some child) :
    child.data.id ∉ leaving previous stay ↔ some position ∈ stay := by
  simp only [leaving, List.mem_filterMap, Prod.exists, Option.ite_none_left_eq_some,
    Option.some.injEq, List.mem_zipIdx_iff_getElem?, not_exists, not_and, List.contains_iff_mem]
  constructor
  · intro never
    by_contra leaves
    exact never child position place leaves rfl
  · intro stays other index there leaves same
    have positions : index = position := by
      refine (List.getElem?_inj ?_ distinct).mp ?_
      · rw [List.length_map]
        exact (List.getElem?_eq_some_iff.mp there).1
      · simp [there, place, same]
    exact leaves (positions ▸ stays)

/-- What is left of the former siblings are those that stay, in the order of the current ones. -/
theorem filter_leaving {previous : List (Tree Node)} (current : List (Tree Node))
    (distinct : (previous.map (·.data.id)).Nodup) :
    previous.filter (fun child => child.data.id ∉ leaving previous (staying previous current)) =
      (slots previous current).filterMap id := by
  have byPosition : previous.filter
      (fun child => child.data.id ∉ leaving previous (staying previous current)) =
      previous.zipIdx.filterMap fun (child, position) =>
        if position ∈ (staying previous current).filterMap id then some child else none := by
    conv_lhs => rw [← List.zipIdx_map_fst 0 previous, List.filter_map, ← List.filterMap_eq_map,
      ← List.filterMap_eq_filter, List.filterMap_filterMap]
    apply List.filterMap_congr
    intro entry member
    have place := List.mem_zipIdx_iff_getElem?.mp member
    have stays := not_mem_leaving_iff (staying previous current) distinct place
    simp only [Function.comp_apply, List.mem_filterMap, id_eq, exists_eq_right]
    by_cases leaves : entry.1.data.id ∈ leaving previous (staying previous current)
    · simp [leaves, mt stays.mpr (not_not_intro leaves)]
    · simp [leaves, stays.mp leaves]
  rw [byPosition, filterMap_zipIdx_of_rising previous 0 (rising_staying previous current) (by simp)]
  simp only [slots, List.filterMap_map, List.filterMap_filterMap, Nat.sub_zero]
  rfl

end Document

end SessionReplay
