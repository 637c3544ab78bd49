import SessionReplay.Proofs.Document.Changes

/-!
Documents that are the same in all that is compared, such as a document and itself. As long as no
node has two children with one id, every child is found where it is, all of them are in order, and
nothing has changed.
-/

namespace SessionReplay

namespace LongestRun

/-- The positions of the longest of these runs, the last first. -/
def longest (runs : List Run) (shorter : List Nat) : List Nat :=
  (runs.getLast?.map Run.positions).getD shorter

theorem positions_eq_longest (values : List Nat) : positions values = longest (runs values) [] := by
  rw [positions, longest]
  cases (runs values).getLast? <;> rfl

theorem longest_cons (run : Run) (runs : List Run) (shorter : List Nat) :
    longest (run :: runs) shorter = longest runs run.positions := by
  rw [longest, longest, List.getLast?_cons]
  cases runs.getLast? <;> rfl

/-- An item takes the place of the first run that does not end below it. -/
theorem place_between {position value : Nat} (shorter : List Nat) {lower upper : List Run}
    (below : ∀ run ∈ lower, run.value < value) (above : ∀ run ∈ upper, ¬run.value < value) :
    place position value shorter (lower ++ upper) =
      lower ++ ⟨position, value, longest lower shorter⟩ :: upper.tail := by
  induction lower generalizing shorter with
  | nil =>
      cases upper with
      | nil => rfl
      | cons first upper =>
          rw [List.nil_append, place, if_neg (above first List.mem_cons_self)]
          rfl
  | cons run lower induction =>
      obtain ⟨first, others⟩ := List.forall_mem_cons.mp below
      rw [List.cons_append, place, if_pos first, induction run.positions others, longest_cons]
      rfl

/-- An item above all runs lengthens the longest. -/
theorem place_above {position value : Nat} (shorter : List Nat) {runs : List Run}
    (above : ∀ run ∈ runs, run.value < value) :
    place position value shorter runs =
      runs ++ [⟨position, value, longest runs shorter⟩] := by
  have placed : place position value shorter (runs ++ []) =
      runs ++ [⟨position, value, longest runs shorter⟩] := place_between shorter above nofun
  rwa [List.append_nil] at placed

theorem longest_fold {values : List Nat} (rising : values.Pairwise (· < ·)) (passed : Nat)
    {runs : List Run} (above : ∀ run ∈ runs, ∀ value ∈ values, run.value < value)
    (before : longest runs [] = (List.range passed).reverse) :
    longest ((values.zipIdx passed).foldl
        (fun runs (value, position) => place position value [] runs) runs) [] =
      (List.range (passed + values.length)).reverse := by
  induction values generalizing passed runs with
  | nil => exact before
  | cons value values induction =>
      obtain ⟨least, rest⟩ := List.pairwise_cons.mp rising
      have placed : place passed value [] runs = runs ++ [⟨passed, value, longest runs []⟩] :=
        place_above [] fun run member => above run member value List.mem_cons_self
      have count : passed + (value :: values).length = passed + 1 + values.length := by
        rw [List.length_cons]
        omega
      rw [List.zipIdx_cons, List.foldl_cons, count]
      dsimp only
      rw [placed]
      apply induction rest
      · intro run member later inside
        rcases List.mem_append.mp member with former | new
        · exact above run former later (List.mem_cons_of_mem _ inside)
        · rw [List.mem_singleton.mp new]
          exact least later inside
      · rw [longest, List.getLast?_concat, before, List.range_succ, List.reverse_append]
        rfl

/-- A list that rises is its own longest run. -/
theorem mask_of_rising {values : List Nat} (rising : values.Pairwise (· < ·)) :
    mask values = List.replicate values.length true := by
  have all : positions values = (List.range values.length).reverse := by
    have none : ∀ run ∈ ([] : List Run), ∀ value ∈ values, run.value < value := nofun
    have folded := longest_fold rising 0 none rfl
    rw [Nat.zero_add] at folded
    rw [← folded]
    exact positions_eq_longest values
  rw [mask, all]
  apply List.eq_replicate_iff.mpr
  simp

end LongestRun

namespace Document

/-- No node has two children with one id. -/
def Apart (tree : Tree Node) : Prop :=
  ∀ part, Tree.Inside part tree → (part.children.map (·.data.id)).Nodup

theorem sameShape_self (kind : Kind) : kind.sameShape kind := by
  cases kind <;> simp [Kind.sameShape]

theorem counterpart_self {children : List (Tree Node)}
    (distinct : (children.map (·.data.id)).Nodup) {child : Tree Node} {position : Nat}
    (there : children[position]? = some child) :
    counterpart? children child = some position := by
  have member : (child, position) ∈ children.zipIdx.reverse :=
    List.mem_reverse.mpr (List.mem_zipIdx_iff_getElem?.mpr there)
  have only : ∀ entry ∈ children.zipIdx.reverse, entry.1.data.id = child.data.id →
      entry = (child, position) := by
    rintro ⟨other, index⟩ listed same
    have place : children[index]? = some other :=
      List.mem_zipIdx_iff_getElem?.mp (List.mem_reverse.mp listed)
    obtain rfl : index = position := by
      refine (List.getElem?_inj ?_ distinct).mp ?_
      · rw [List.length_map]
        exact (List.getElem?_eq_some_iff.mp place).1
      · simp only [List.getElem?_map, place, there, Option.map_some]
        exact congrArg some same
    rw [there] at place
    rw [Option.some.inj place]
  unfold counterpart?
  split
  case h_1 before index found =>
    have same := List.find?_some found
    cases only _ (List.mem_of_find?_eq_some found) (by simpa using same)
    simp [sameShape_self]
  case h_2 found => exact absurd (List.find?_eq_none.mp found _ member) (by simp)

theorem keepMasked_all (items : List (Option Nat)) :
    keepMasked items (List.replicate (items.filterMap id).length true) = items := by
  induction items with
  | nil => rfl
  | cons item items induction =>
      cases item with
      | none => exact congrArg _ induction
      | some position => exact congrArg _ induction

/-- Every child stays where it is. -/
theorem staying_self {children : List (Tree Node)} (distinct : (children.map (·.data.id)).Nodup) :
    staying children children = (List.range children.length).map some := by
  have found : children.map (counterpart? children) = (List.range children.length).map some := by
    apply List.ext_getElem?
    intro index
    rw [List.getElem?_map, List.getElem?_map]
    cases there : children[index]? with
    | none => simp [List.getElem?_eq_none_iff.mp there]
    | some child =>
        have inside := (List.getElem?_eq_some_iff.mp there).1
        simp [counterpart_self distinct there, inside]
  have positions : (((List.range children.length).map some).filterMap id) =
      List.range children.length := by simp
  have kept := keepMasked_all ((List.range children.length).map some)
  rw [positions] at kept
  rw [staying, found, positions, LongestRun.mask_of_rising List.pairwise_lt_range, kept]

theorem removals_of_all_stay (parent : NodeId) (children : List (Tree Node)) :
    removals parent children ((List.range children.length).map some) = [] := by
  apply List.filterMap_eq_nil_iff.mpr
  rintro ⟨child, position⟩ member
  have inside := (List.getElem?_eq_some_iff.mp (List.mem_zipIdx_iff_getElem?.mp member)).1
  simp [inside]

theorem additions_of_all_stay (parent : NodeId) (children : List (Tree Node))
    (positions : List Nat) : additions parent children (positions.map some) = [] := by
  induction children generalizing positions with
  | nil => cases positions <;> rfl
  | cons child children induction =>
      cases positions with
      | nil => rfl
      | cons position positions => exact induction positions

/-- Nodes that do not differ in what the comparison is about. -/
structure Same (former now : Node) : Prop where
  id : former.id = now.id
  kind : former.kind = now.kind
  masked : now.kind ≠ .document → former.masked = now.masked

theorem same_self (node : Node) : Same node node := ⟨rfl, rfl, fun _ => rfl⟩

theorem Same.shape {former now : Node} (same : Same former now) :
    former.kind.sameShape now.kind := by
  rw [same.kind]
  exact sameShape_self now.kind

theorem matches_self (tree : Tree Node) : Tree.Matches Same tree tree := by
  have image := Tree.matches_map (f := fun node => node) same_self tree
  rwa [Tree.map_id] at image

theorem faceChanges_eq_empty_iff {former now : Node} (id : former.id = now.id)
    (shape : former.kind.sameShape now.kind) :
    faceChanges former now = {} ↔ Same former now := by
  rcases sameShape_cases shape with ⟨oldKind, newKind⟩ | ⟨old, new, oldKind, newKind, tag⟩ |
    ⟨old, new, isStyle, oldKind, newKind⟩
  · have nothing : faceChanges former now = {} := by simp only [faceChanges, oldKind, newKind]
    refine iff_of_true nothing ⟨id, oldKind.trans newKind.symm, ?_⟩
    intro other
    exact absurd newKind other
  · rw [faceChanges_element oldKind newKind]
    constructor
    · intro nothing
      split at nothing
      case isTrue equal =>
        obtain ⟨attributes, style, masked⟩ := equal
        have element : old = new := by
          cases old
          cases new
          simp_all
        exact ⟨id, by rw [oldKind, newKind, element], fun _ => masked⟩
      case isFalse => simp at nothing
    · intro same
      have element : old = new := by
        have kind := same.kind
        rw [oldKind, newKind] at kind
        exact Kind.element.inj kind
      have masked := same.masked (by simp [newKind])
      rw [if_pos ⟨congrArg Element.attributes element, congrArg Element.style element, masked⟩]
  · rw [faceChanges_text oldKind newKind]
    constructor
    · intro nothing
      split at nothing
      case isTrue equal => exact ⟨id, by rw [oldKind, newKind, equal.1], fun _ => equal.2⟩
      case isFalse => simp at nothing
    · intro same
      have content : old = new := by
        have kind := same.kind
        rw [oldKind, newKind] at kind
        exact (Kind.text.inj kind).1
      rw [if_pos ⟨content, same.masked (by simp [newKind])⟩]

/-- A child is looked for by its id and its shape alone. -/
theorem counterpart_congr {formers : List (Tree Node)} {child other : Tree Node}
    (id : child.data.id = other.data.id) (kind : child.data.kind = other.data.kind) :
    counterpart? formers child = counterpart? formers other := by
  rw [counterpart?, counterpart?, id, kind]

theorem staying_congr {formers children others : List (Tree Node)}
    (alike : List.Forall₂ (fun child other => Same child.data other.data) children others) :
    staying formers children = staying formers others := by
  have found : children.map (counterpart? formers) = others.map (counterpart? formers) :=
    Tree.map_of_forall₂ alike fun child _ other same => counterpart_congr same.id same.kind
  rw [staying, staying, found]

theorem slots_in_place (formers : List (Tree Node)) :
    ((List.range formers.length).map some).map (fun position => position.bind (formers[·]?)) =
      formers.map some := by
  apply List.ext_getElem?
  intro index
  by_cases inside : index < formers.length
  · simp [inside]
  · simp [Nat.not_lt.mp inside]

theorem changesBelow_of_forall₂ {related : Tree Node → Tree Node → Prop}
    {formers children : List (Tree Node)} (alike : List.Forall₂ related formers children)
    (same : ∀ former ∈ formers, ∀ child, related former child → changesAt former child = {}) :
    changesBelow (formers.map some) children = {} := by
  induction alike with
  | nil => rfl
  | cons first _ induction =>
      rw [List.forall_mem_cons] at same
      rw [List.map_cons, changesBelow, same.1 _ first, induction same.2]
      rfl

/-- Where the documents are the same node by node, nothing changes. -/
theorem changesAt_of_matches {previous current : Tree Node} (apart : Apart previous)
    (alike : Tree.Matches Same previous current) : changesAt previous current = {} := by
  induction previous using Tree.children_induction generalizing current with
  | step former formers induction =>
      cases alike with
      | @node _ now _ children here below =>
          have stay : staying formers children = (List.range formers.length).map some := by
            rw [← staying_congr (below.imp fun _ _ => Tree.Matches.data)]
            exact staying_self (apart _ (.itself (.node former formers)))
          have face : faceChanges former now = {} :=
            (faceChanges_eq_empty_iff here.id here.shape).mpr here
          have unchanged : changesBelow (formers.map some) children = {} :=
            changesBelow_of_forall₂ below fun child member _ alike =>
              induction child member (fun part inside => apart part (.inner member inside)) alike
          simp only [changesAt, Tree.data, Tree.children, stay, slots_in_place, face,
            removals_of_all_stay, additions_of_all_stay, unchanged]
          rfl

/-- A document does not differ from itself. -/
theorem changes_self {tree : Tree Node} (apart : Apart tree) : changes tree tree = .ok [] := by
  rw [changes, if_pos ⟨rfl, sameShape_self _⟩, changesAt_of_matches apart (matches_self tree)]
  rfl

end Document

end SessionReplay
