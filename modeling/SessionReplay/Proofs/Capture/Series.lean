import SessionReplay.Proofs.Capture.Naming

/-!
Captures that share a registry, one after the other. The views, the root and the settings may
change from each capture to the next. As long as the ids do not run out, every id belongs to one
key and to one unbroken stretch of captures.
-/

namespace SessionReplay.Capture

open SessionReplay.Identity (Counted Follows Key Reachable Registry follows_after)

/-- What is captured, and how. -/
structure Turn where
  settings : Settings
  source : View.Introspector
  root : ViewHandle
  tick : UInt64

/-- A capture, with the registry that it was begun with. -/
structure Shot where
  turn : Turn
  before : Registry

namespace Shot

variable (shot : Shot)

def outcome : Outcome :=
  capture shot.turn.settings shot.turn.source shot.before shot.turn.root shot.turn.tick

def after : Registry := shot.outcome.registry

/-- The nodes of the captured document, with the keys that they were made for. -/
def seen : Tree Numbered :=
  census shot.turn.settings shot.turn.source shot.before shot.turn.root

/-- The document has a node for this key, with this id. -/
def Emits (key : Key) (id : NodeId) : Prop :=
  ∃ entry ∈ shot.seen.preorder, entry.sighting.key = key ∧ entry.id = id

end Shot

def series (registry : Registry) : List Turn → List Shot
  | [] => []
  | turn :: turns => ⟨turn, registry⟩ :: series (Shot.mk turn registry).after turns

/-- What a series of captures has to show. -/
structure Lasting (shots : List Shot) : Prop where
  /-- Each registry tells what the document was made of. -/
  emitted : ∀ shot ∈ shots, shot.seen.map Numbered.node = shot.outcome.tree ∧
    ∀ (key : Key) (id : NodeId), shot.after.get? key = some id ↔ shot.Emits key id
  /-- An id that is known at two captures is the same key's at both, and at all in between. -/
  owner : ∀ (i j : Nat) (one two : Shot) (key other : Key) (id : NodeId), i ≤ j →
    shots[i]? = some one → shots[j]? = some two →
    one.after.get? key = some id → two.after.get? other = some id →
    key = other ∧ ∀ (k : Nat) (shot : Shot), i ≤ k → k ≤ j → shots[k]? = some shot →
      shot.after.get? key = some id
  /-- A key keeps its id as long as every capture has a node for it. -/
  steady : ∀ (i j : Nat) (one : Shot) (key : Key) (id : NodeId),
    shots[i]? = some one → one.Emits key id →
    (∀ (k : Nat) (shot : Shot), i ≤ k → k ≤ j → shots[k]? = some shot → ∃ id, shot.Emits key id) →
    ∀ (k : Nat) (shot : Shot) (other : NodeId), i ≤ k → k ≤ j → shots[k]? = some shot →
      shot.Emits key other → other = id
  /-- A key that a capture had no node for comes back with an id above all that were given away
  before, in earlier captures and in the one in which it comes back. -/
  back : ∀ (m : Nat) (one two : Shot) (key : Key) (id : NodeId),
    shots[m]? = some one → shots[m + 1]? = some two →
    (∀ id, ¬one.Emits key id) → two.Emits key id →
    (∀ (k : Nat) (shot : Shot), k ≤ m → shots[k]? = some shot →
      ∀ entry ∈ shot.seen.preorder, entry.id.val < id.val) ∧
    ∃ former entry latter, two.seen.preorder = former ++ entry :: latter ∧
      entry.sighting.key = key ∧ entry.id = id ∧ ∀ other ∈ former, other.id.val < id.val

section Series

variable {registry : Registry} {turns : List Turn} {shot one two : Shot} {key other : Key}
variable {id : NodeId}

theorem get?_after (reachable : Reachable shot.before) :
    shot.after.get? key = some id ↔ shot.Emits key id :=
  get?_capture reachable

theorem reachable_after (reachable : Reachable shot.before) : Reachable shot.after :=
  reachable_capture reachable

theorem follows_shot (reachable : Reachable shot.before) : Follows shot.before shot.after := by
  have whole : shot.seen.preorder = [] ++ shot.seen.preorder := rfl
  exact (follows_atTurn shot.before []).trans (atTurn_follows reachable whole)

theorem reachable_series (reachable : Reachable registry) :
    ∀ shot ∈ series registry turns, Reachable shot.before := by
  induction turns generalizing registry with
  | nil => exact List.forall_mem_nil _
  | cons turn turns induction =>
      have later : Reachable (Shot.mk turn registry).after := reachable_after reachable
      exact List.forall_mem_cons.mpr ⟨reachable, induction later⟩

theorem follows_series (reachable : Reachable registry) :
    ∀ shot ∈ series registry turns, Follows registry shot.before := by
  induction turns generalizing registry with
  | nil => exact List.forall_mem_nil _
  | cons turn turns induction =>
      have start : Reachable (Shot.mk turn registry).before := reachable
      have step : Follows registry (Shot.mk turn registry).after := follows_shot start
      have later : Reachable (Shot.mk turn registry).after := reachable_after start
      rw [series, List.forall_mem_cons]
      constructor
      · exact Follows.refl registry
      · intro shot member
        exact step.trans (induction later shot member)

theorem pairwise_series (reachable : Reachable registry) :
    (series registry turns).Pairwise fun former latter => Follows former.after latter.before := by
  induction turns generalizing registry with
  | nil => exact List.Pairwise.nil
  | cons turn turns induction =>
      have later : Reachable (Shot.mk turn registry).after := reachable_after reachable
      exact List.Pairwise.cons (follows_series later) (induction later)

theorem follows_between (reachable : Reachable registry) {i j : Nat} (order : i ≤ j)
    (first : (series registry turns)[i]? = some one)
    (second : (series registry turns)[j]? = some two) : Follows one.after two.after := by
  rcases Nat.eq_or_lt_of_le order with rfl | less
  · rw [first] at second
    cases second
    exact Follows.refl one.after
  · obtain ⟨inside, rfl⟩ := List.getElem?_eq_some_iff.mp first
    obtain ⟨otherInside, rfl⟩ := List.getElem?_eq_some_iff.mp second
    have between := List.pairwise_iff_getElem.mp (pairwise_series reachable) i j inside
      otherInside less
    exact between.trans (follows_shot (reachable_series reachable _ (List.getElem_mem otherInside)))

theorem before_series {m : Nat} (first : (series registry turns)[m]? = some one)
    (second : (series registry turns)[m + 1]? = some two) : two.before = one.after := by
  induction turns generalizing registry m with
  | nil => contradiction
  | cons turn turns induction =>
      cases m with
      | zero =>
          cases first
          cases turns with
          | nil => contradiction
          | cons next turns =>
              cases second
              rfl
      | succ m => exact induction first second

/-- An id that was known before belongs to the same key later. -/
theorem owner_later {former latter : Registry} (follows : Follows former latter)
    (counted : Counted former) (known : former.get? key = some id)
    (later : latter.get? other = some id) : key = other := by
  obtain ⟨entry, held, rfl⟩ := Registry.get?_eq_some.mp known
  rcases follows.fresh other entry.id later with before | above
  · obtain ⟨another, found, same⟩ := Registry.get?_eq_some.mp before
    exact counted.injective key other entry another held found same.symm
  · exact absurd (counted.bounded key entry held) (UInt32.not_lt.mpr above)

/-- An id that is known before and after is known in between. -/
theorem known_between {former middle latter : Registry} (first : Follows former middle)
    (second : Follows middle latter) (counted : Counted former)
    (known : former.get? key = some id) (later : latter.get? key = some id) :
    middle.get? key = some id := by
  obtain ⟨entry, held, rfl⟩ := Registry.get?_eq_some.mp known
  rcases second.fresh key entry.id later with before | above
  · exact before
  · have bound := counted.bounded key entry held
    exact absurd (UInt32.lt_of_lt_of_le bound first.next) (UInt32.not_lt.mpr above)

/-- Ids that were given away are below all that are given away later. -/
theorem emitted_below {latter : Registry} (reachable : Reachable shot.before)
    (left : shot.after.exhausted = false) (follows : Follows shot.after latter) {entry : Numbered}
    (member : entry ∈ shot.seen.preorder) : entry.id.val < latter.next.val := by
  have known := (get?_after reachable).mpr ⟨entry, member, rfl, rfl⟩
  obtain ⟨held, found, same⟩ := Registry.get?_eq_some.mp known
  have bound := ((reachable_after reachable).counted left).bounded _ held found
  rw [same] at bound
  exact UInt32.lt_of_lt_of_le bound follows.next

theorem exists_first {seen : List Numbered} {entry : Numbered} (member : entry ∈ seen)
    (own : entry.sighting.key = key) :
    ∃ former first latter, seen = former ++ first :: latter ∧ first.sighting.key = key ∧
      ∀ other ∈ former, other.sighting.key ≠ key := by
  have some : (seen.find? fun other => decide (other.sighting.key = key)).isSome = true := by
    rw [List.find?_isSome]
    exact ⟨entry, member, by simp [own]⟩
  obtain ⟨first, found⟩ := Option.isSome_iff_exists.mp some
  obtain ⟨same, former, latter, split, others⟩ := List.find?_eq_some_iff_append.mp found
  exact ⟨former, first, latter, split, by simpa using same, by simpa using others⟩

theorem id_next (reachable : Reachable registry)
    (left : ∀ shot ∈ series registry turns, shot.after.exhausted = false) {m : Nat}
    (first : (series registry turns)[m]? = some one)
    (second : (series registry turns)[m + 1]? = some two) {before later : NodeId}
    (emits : one.Emits key before) (again : two.Emits key later) : later = before := by
  obtain ⟨former, member, own, rfl⟩ := emits
  obtain ⟨latter, otherMember, otherOwn, rfl⟩ := again
  have counted := (reachable_series reachable one (List.mem_of_getElem? first)).counted
  have some := left one (List.mem_of_getElem? first)
  rw [Shot.seen, before_series first second] at otherMember
  exact id_kept counted some member otherMember (otherOwn.trans own.symm)

theorem steady_series (reachable : Reachable registry)
    (left : ∀ shot ∈ series registry turns, shot.after.exhausted = false) {i j : Nat}
    (begun : (series registry turns)[i]? = some one) (emits : one.Emits key id)
    (all : ∀ (k : Nat) (shot : Shot), i ≤ k → k ≤ j → (series registry turns)[k]? = some shot →
      ∃ id, shot.Emits key id) {k : Nat} (order : i ≤ k) :
    ∀ (shot : Shot) (other : NodeId), k ≤ j → (series registry turns)[k]? = some shot →
      shot.Emits key other → other = id := by
  induction k, order using Nat.le_induction with
  | base =>
      intro shot other _ here again
      rw [begun] at here
      cases here
      have start := reachable_series reachable one (List.mem_of_getElem? begun)
      have known := (get?_after start).mpr emits
      rw [(get?_after start).mpr again] at known
      exact Option.some.inj known
  | succ k order induction =>
      intro shot other inside here again
      obtain ⟨bound, -⟩ := List.getElem?_eq_some_iff.mp here
      have former := List.getElem?_eq_getElem (Nat.lt_of_succ_lt bound)
      obtain ⟨before, shown⟩ := all k _ order (Nat.le_of_succ_le inside) former
      rw [id_next reachable left former here shown again]
      exact induction _ before (Nat.le_of_succ_le inside) former shown

theorem back_series (reachable : Reachable registry)
    (left : ∀ shot ∈ series registry turns, shot.after.exhausted = false) {m : Nat}
    (first : (series registry turns)[m]? = some one)
    (second : (series registry turns)[m + 1]? = some two) (absent : ∀ id, ¬one.Emits key id)
    (emits : two.Emits key id) :
    one.after.next.val ≤ id.val ∧
      ∃ former entry latter, two.seen.preorder = former ++ entry :: latter ∧
        entry.sighting.key = key ∧ entry.id = id ∧ ∀ other ∈ former, other.id.val < id.val := by
  have start := reachable_series reachable two (List.mem_of_getElem? second)
  have some := left two (List.mem_of_getElem? second)
  have unknown : two.before.get? key = none := by
    rw [before_series first second]
    apply Option.eq_none_iff_forall_ne_some.mpr
    intro held known
    exact absent held
      ((get?_after (reachable_series reachable one (List.mem_of_getElem? first))).mp known)
  obtain ⟨shown, member, own, same⟩ := emits
  obtain ⟨former, entry, latter, split, rfl, others⟩ := exists_first member own
  have here : entry ∈ two.seen.preorder := by simp [split]
  have known := (get?_after start).mpr ⟨entry, here, rfl, rfl⟩
  rw [(get?_after start).mpr ⟨shown, member, own, same⟩] at known
  have given : entry.id = id := (Option.some.inj known).symm
  obtain ⟨above, below⟩ := id_new start some split unknown others
  rw [before_series first second, given] at above
  rw [given] at below
  exact ⟨above, former, entry, latter, split, rfl, given, below⟩

/-- No two keys share an id, and no key changes its id without having been away. -/
theorem lasting_series (first : NodeId) (turns : List Turn)
    (left : ∀ shot ∈ series (.startingAt first) turns, shot.after.exhausted = false) :
    Lasting (series (.startingAt first) turns) := by
  have begun : Reachable (.startingAt first) := ⟨first, [], rfl⟩
  have counted : ∀ {k : Nat} {shot : Shot}, (series (.startingAt first) turns)[k]? = some shot →
      Counted shot.after := by
    intro k shot there
    have member := List.mem_of_getElem? there
    exact (reachable_after (reachable_series begun shot member)).counted (left shot member)
  constructor
  case emitted =>
    intro shot member
    have start := reachable_series begun shot member
    exact ⟨map_node_census shot.turn.tick, fun _ _ => get?_after start⟩
  case owner =>
    intro i j one two key other id order start finish known later
    have same := owner_later (follows_between begun order start finish) (counted start) known later
    constructor
    · exact same
    · intro k shot lower upper there
      rw [← same] at later
      exact known_between (follows_between begun lower start there)
        (follows_between begun upper there finish) (counted start) known later
  case steady =>
    intro i j one key id start emits all k shot other lower upper there
    exact steady_series begun left start emits all lower shot other upper there
  case back =>
    intro m one two key id start next absent emits
    obtain ⟨above, rest⟩ := back_series begun left start next absent emits
    constructor
    · intro k shot earlier there entry member
      have listed := List.mem_of_getElem? there
      have below := emitted_below (reachable_series begun shot listed) (left shot listed)
        (follows_between begun earlier there start) member
      exact UInt32.lt_of_lt_of_le below above
    · exact rest

/-- The gallery, then only its text, then the gallery again. -/
def visits : List Turn :=
  [⟨{}, gallery, ⟨1⟩, 0⟩, ⟨{}, gallery, ⟨2⟩, 1⟩, ⟨{}, gallery, ⟨1⟩, 2⟩]

theorem lasting_series_visits :
    (∀ shot ∈ series (.startingAt .first) visits, shot.after.exhausted = false) ∧
      Lasting (series (.startingAt .first) visits) := by
  have left : ∀ shot ∈ series (.startingAt .first) visits, shot.after.exhausted = false := by
    decide +kernel
  exact ⟨left, lasting_series .first visits left⟩

end Series

end SessionReplay.Capture
