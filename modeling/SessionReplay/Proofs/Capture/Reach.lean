import SessionReplay.Proofs.Capture.Walk
import Mathlib.Data.List.Nodup

/-!
What can be reached from a view, and by which way. When no view is reached twice, no two things
seen have the same key, so that a view's masking and its id are its own.
-/

namespace SessionReplay

namespace View.Introspector

/-- Follows a way down, given by the places of the children taken. -/
def follow (source : Introspector) (view : ViewHandle) : List Nat → Option ViewHandle
  | [] => some view
  | place :: way =>
      match (source.children view)[place]? with
      | some child => follow source child way
      | none => none

/-- No view is reached in two ways. -/
def ReachesOnce (source : Introspector) (root : ViewHandle) : Prop :=
  ∀ first second view, source.follow root first = some view →
    source.follow root second = some view → first = second

def Reaches (source : Introspector) (root view : ViewHandle) : Prop :=
  ∃ way, source.follow root way = some view

variable {source : Introspector} {view child : ViewHandle} {place : Nat}

theorem follow_child (there : (source.children view)[place]? = some child) (way : List Nat) :
    source.follow view (place :: way) = source.follow child way := by
  rw [follow, there]

theorem ReachesOnce.below (once : source.ReachesOnce view)
    (there : (source.children view)[place]? = some child) : source.ReachesOnce child := by
  intro first second other one two
  rw [← follow_child there] at one two
  exact (List.cons.inj (once _ _ other one two)).2

theorem reachesOnce_of_alone (alone : source.children view = []) : source.ReachesOnce view := by
  have stuck : ∀ place way other, source.follow view (place :: way) ≠ some other := by
    intro place way other
    rw [follow, alone]
    nofun
  intro first second other one two
  cases first with
  | nil =>
      cases second with
      | nil => rfl
      | cons place way => exact absurd two (stuck place way other)
  | cons place way => exact absurd one (stuck place way other)

theorem reachesOnce_of_leaves (distinct : (source.children view).Nodup)
    (leaves : ∀ child ∈ source.children view, source.children child = []) :
    source.ReachesOnce view := by
  have below : ∀ {place : Nat} {way : List Nat} {other : ViewHandle},
      source.follow view (place :: way) = some other →
      way = [] ∧ (source.children view)[place]? = some other := by
    intro place way other there
    rw [follow] at there
    split at there
    case h_1 child found =>
      have leaf := leaves child (List.mem_of_getElem? found)
      cases way with
      | nil => exact ⟨rfl, found.trans there⟩
      | cons next way =>
          rw [follow, leaf] at there
          contradiction
    case h_2 => contradiction
  have apart : ∀ {place : Nat} {way : List Nat},
      source.follow view (place :: way) ≠ some view := by
    intro place way back
    have own := List.mem_of_getElem? (below back).2
    rw [leaves view own] at own
    contradiction
  intro first second other one two
  cases first with
  | nil =>
      cases second with
      | nil => rfl
      | cons place way =>
          cases one
          exact absurd two apart
  | cons place way =>
      cases second with
      | nil =>
          cases two
          exact absurd one apart
      | cons otherPlace otherWay =>
          obtain ⟨rfl, here⟩ := below one
          obtain ⟨rfl, there⟩ := below two
          have inside := (List.getElem?_eq_some_iff.mp here).1
          rw [(List.getElem?_inj inside distinct).mp (here.trans there.symm)]

/-- A view is not reached from its own children. -/
theorem ReachesOnce.apart (once : source.ReachesOnce view)
    (there : (source.children view)[place]? = some child) : ¬source.Reaches child view := by
  rintro ⟨way, back⟩
  rw [← follow_child there] at back
  have same := once [] _ view rfl back
  contradiction

theorem ReachesOnce.siblings_apart (once : source.ReachesOnce view) {other : ViewHandle}
    {otherPlace : Nat} (different : place ≠ otherPlace)
    (there : (source.children view)[place]? = some child)
    (otherThere : (source.children view)[otherPlace]? = some other) {below : ViewHandle}
    (reached : source.Reaches child below) : ¬source.Reaches other below := by
  rintro ⟨second, twice⟩
  obtain ⟨first, one⟩ := reached
  rw [← follow_child there] at one
  rw [← follow_child otherThere] at twice
  exact different (List.cons.inj (once _ _ below one twice)).1

end View.Introspector

namespace Capture.Surveyor

variable {surveyor : Surveyor}

def keys (tree : Tree Sighting) : List Identity.Key := tree.preorder.map (·.key)

theorem keys_node (sighting : Sighting) (children : List (Tree Sighting)) :
    keys (.node sighting children) = sighting.key :: children.flatMap keys := by
  simp only [keys, Tree.preorder_node, List.map_cons, List.map_flatMap]
  rfl

theorem keys_textNodes (view : ViewHandle) (face : Face) (text : Option String) :
    (textNodes view face text).flatMap keys = text.toList.map fun _ => ⟨view, .text⟩ := by
  cases text <;> rfl

/-- Everything seen below a view belongs to a view that is reached from there. -/
structure Reached (surveyor : Surveyor) (view : ViewHandle) (tree : Tree Sighting) : Prop where
  inside : ∀ key ∈ keys tree, key.role ≠ .document ∧ surveyor.source.Reaches view key.view
  distinct : surveyor.source.ReachesOnce view → (keys tree).Nodup

theorem reached_alone {view : ViewHandle} {sighting : Sighting}
    (key : sighting.key = ⟨view, .view⟩) : surveyor.Reached view (.node sighting []) where
  inside := by
    intro other member
    rw [keys_node, key] at member
    obtain rfl := List.mem_singleton.mp member
    exact ⟨nofun, [], rfl⟩
  distinct := by
    intro once
    rw [keys_node]
    exact List.nodup_singleton _

/-- Each tree belongs to the child in its place. -/
def Offspring (surveyor : Surveyor) (view : ViewHandle) (trees : List (Tree Sighting)) : Prop :=
  ∀ index (inside : index < trees.length), ∃ child,
    (surveyor.source.children view)[index]? = some child ∧ surveyor.Reached child trees[index]

theorem offspring_of_forall₂ {view : ViewHandle} {seen : List ViewHandle}
    {trees : List (Tree Sighting)} (first : seen <+: surveyor.source.children view)
    (below : List.Forall₂ surveyor.Reached seen trees) : surveyor.Offspring view trees := by
  intro index inside
  have seenInside : index < seen.length := by
    rw [below.length_eq]
    exact inside
  refine ⟨seen[index], ?_, below.get seenInside inside⟩
  obtain ⟨later, all⟩ := first
  rw [← all, List.getElem?_append_left seenInside]
  exact List.getElem?_eq_getElem _

section Offspring

variable {view : ViewHandle} {trees : List (Tree Sighting)}

theorem Offspring.within (offspring : surveyor.Offspring view trees) {key : Identity.Key}
    (member : key ∈ trees.flatMap keys) :
    key.role ≠ .document ∧ ∃ (place : Nat) (child : ViewHandle),
      (surveyor.source.children view)[place]? = some child ∧
        surveyor.source.Reaches child key.view := by
  obtain ⟨tree, treeInside, keyInside⟩ := List.mem_flatMap.mp member
  obtain ⟨index, bound, rfl⟩ := List.mem_iff_getElem.mp treeInside
  obtain ⟨child, there, known⟩ := offspring index bound
  obtain ⟨role, reached⟩ := known.inside key keyInside
  exact ⟨role, index, child, there, reached⟩

theorem Offspring.apart (offspring : surveyor.Offspring view trees)
    (once : surveyor.source.ReachesOnce view) {key : Identity.Key}
    (member : key ∈ trees.flatMap keys) : key.view ≠ view := by
  intro same
  obtain ⟨-, place, child, there, reached⟩ := offspring.within member
  rw [same] at reached
  exact once.apart there reached

theorem Offspring.distinct (offspring : surveyor.Offspring view trees)
    (once : surveyor.source.ReachesOnce view) : (trees.flatMap keys).Nodup := by
  apply List.nodup_flatMap.mpr
  constructor
  · intro tree member
    obtain ⟨index, bound, rfl⟩ := List.mem_iff_getElem.mp member
    obtain ⟨child, there, known⟩ := offspring index bound
    exact known.distinct (once.below there)
  · apply List.pairwise_iff_getElem.mpr
    intro index other bound otherBound order key one two
    obtain ⟨child, there, known⟩ := offspring index bound
    obtain ⟨sibling, otherThere, otherKnown⟩ := offspring other otherBound
    exact once.siblings_apart (Nat.ne_of_lt order) there otherThere (known.inside key one).2
      (otherKnown.inside key two).2

/-- A view with its text and all that is seen below it. -/
theorem Offspring.reached (offspring : surveyor.Offspring view trees) {sighting : Sighting}
    (key : sighting.key = ⟨view, .view⟩) (face : Face) (text : Option String) :
    surveyor.Reached view (.node sighting (textNodes view face text ++ trees)) where
  inside := by
    intro other member
    rw [keys_node, key, List.flatMap_append, keys_textNodes] at member
    rcases List.mem_cons.mp member with rfl | member
    · exact ⟨nofun, [], rfl⟩
    · rcases List.mem_append.mp member with shown | member
      · obtain ⟨-, -, rfl⟩ := List.mem_map.mp shown
        exact ⟨nofun, [], rfl⟩
      · obtain ⟨role, place, child, there, way, arrives⟩ := offspring.within member
        exact ⟨role, place :: way, (View.Introspector.follow_child there way).trans arrives⟩
  distinct := by
    intro once
    rw [keys_node, key, List.flatMap_append, keys_textNodes]
    apply List.nodup_cons.mpr
    constructor
    · intro member
      rcases List.mem_append.mp member with shown | member
      · obtain ⟨-, -, other⟩ := List.mem_map.mp shown
        cases other
      · exact offspring.apart once member rfl
    · apply List.nodup_append.mpr
      refine ⟨?_, offspring.distinct once, ?_⟩
      · cases text with
        | none => exact List.nodup_nil
        | some content => exact List.nodup_singleton _
      · intro own shown other member same
        obtain ⟨-, -, rfl⟩ := List.mem_map.mp shown
        apply offspring.apart once member
        rw [← same]

end Offspring

theorem visit_reached (levels depth : Nat) (place : Placement) (inherited : List Masking)
    (view : ViewHandle) (tally : Tally) :
    surveyor.Reached view (surveyor.visit levels depth place inherited view tally).1 := by
  apply visit_induction (motive := fun _ _ _ _ view tree => surveyor.Reached view tree)
  case terminal =>
    intro levels depth place inherited view limit tally
    exact reached_alone rfl
  case placeholder =>
    intro levels depth place inherited view frame paint reports tally fails
    exact reached_alone rfl
  case element =>
    intro levels depth place inherited view kind portrait seen children told answered first below
      face reports
    exact (offspring_of_forall₂ first below).reached rfl face portrait.text

/-- No two things seen in a survey have the same key. -/
theorem survey_keys_nodup {root : ViewHandle} (once : surveyor.source.ReachesOnce root) :
    (keys (surveyor.survey root).1).Nodup := by
  have below := surveyor.visit_reached (surveyor.limits.maxDepth.toNat - 1) 1
    ⟨.identity, (answerOr .zero .geometry (surveyor.source.frame root)).1.sanitize⟩ [] root
    (Tally.count 0 {})
  have top : keys (surveyor.survey root).1 = ⟨root, .document⟩ :: keys (surveyor.visit
      (surveyor.limits.maxDepth.toNat - 1) 1
      ⟨.identity, (answerOr .zero .geometry (surveyor.source.frame root)).1.sanitize⟩ [] root
      (Tally.count 0 {})).1 := by
    rw [survey, keys_node, List.flatMap_singleton]
  rw [top]
  exact List.nodup_cons.mpr ⟨fun member => (below.inside _ member).1 rfl, below.distinct once⟩

end Capture.Surveyor

end SessionReplay
