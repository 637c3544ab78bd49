import Std.Data.ExtTreeMap

/-!
Maps from names to values, and the changes between two of them. A change gives a name its new
value, or no value when the name goes. The main statements say what a change and its application
hold for each name.
-/

namespace SessionReplay

/-- Values by name, in the order of the names. Two such maps are equal when they agree on every
name. -/
abbrev Properties := Std.ExtTreeMap String String

abbrev KeyDelta := Std.ExtTreeMap String (Option String)

namespace Properties

/-- All of both maps; where they differ the second is right. -/
def extend (properties more : Properties) : Properties := properties ∪ more

theorem getElem?_extend (properties more : Properties) (name : String) :
    (properties.extend more)[name]? = more[name]?.or properties[name]? :=
  Std.ExtTreeMap.getElem?_union

end Properties

namespace KeyDelta

/-- The names whose value in `new` is another than in `old`, with that value. -/
def changed (old new : Properties) : KeyDelta :=
  new.filterMap fun name value => if old[name]? = some value then none else some (some value)

/-- The names of `old` that `new` lacks. -/
def gone (old new : Properties) : KeyDelta :=
  old.filterMap fun name _ => if new.contains name then none else some none

def between (old new : Properties) : KeyDelta := gone old new ∪ changed old new

/-- Gives one name its new value. -/
def set (properties : Properties) (name : String) : Option String → Properties
  | some value => properties.insert name value
  | none => properties.erase name

def apply (delta : KeyDelta) (properties : Properties) : Properties :=
  delta.foldl set properties

/-- A delta that also gives every name of `properties` the value it has there. -/
def restate (delta : KeyDelta) (properties : Properties) : KeyDelta :=
  delta ∪ properties.map fun _ value => some value

theorem getElem?_set (properties : Properties) (name key : String) (value : Option String) :
    (set properties name value)[key]? = if name = key then value else properties[key]? := by
  cases value with
  | none => simp [set, Std.ExtTreeMap.getElem?_erase]
  | some value => simp [set, Std.ExtTreeMap.getElem?_insert]

theorem getElem?_changed (old new : Properties) (name : String) :
    (changed old new)[name]? =
      new[name]?.bind fun value => if old[name]? = some value then none else some (some value) :=
  Std.ExtTreeMap.getElem?_filterMap'

theorem getElem?_gone (old new : Properties) (name : String) :
    (gone old new)[name]? = old[name]?.bind fun _ => if new.contains name then none else some none :=
  Std.ExtTreeMap.getElem?_filterMap'

/-- A name is in the delta when the two maps differ on it, with what the new map has for it. -/
theorem getElem?_between (old new : Properties) (name : String) :
    (between old new)[name]? = if old[name]? = new[name]? then none else some new[name]? := by
  rw [between, Std.ExtTreeMap.getElem?_union, getElem?_changed, getElem?_gone,
    Std.ExtTreeMap.contains_eq_isSome_getElem?]
  cases old[name]? <;> cases new[name]? <;> simp

section Passes

variable {β γ : Type}
variable {step : Std.ExtTreeMap String γ → String → β → Std.ExtTreeMap String γ}
variable (effect : String → β → Option γ → Option γ)

theorem getElem?_foldl_entries
    (steps : ∀ held name value (key : String), (step held name value)[key]? =
      if name = key then effect name value held[key]? else held[key]?)
    {entries : List (String × β)}
    (distinct : entries.Pairwise fun first second => ¬compare first.1 second.1 = .eq)
    (held : Std.ExtTreeMap String γ) (key : String) :
    (entries.foldl (fun held entry => step held entry.1 entry.2) held)[key]? =
      (entries.find? (compare ·.1 key == .eq)).elim held[key]? fun entry =>
        effect entry.1 entry.2 held[key]? := by
  induction entries generalizing held with
  | nil => rfl
  | cons entry entries induction =>
      obtain ⟨others, rest⟩ := List.pairwise_cons.mp distinct
      rw [List.foldl_cons, induction rest, steps, List.find?_cons]
      by_cases here : entry.1 = key
      · have absent : entries.find? (compare ·.1 key == .eq) = none := by
          apply List.find?_eq_none.mpr
          intro other member same
          have equal : other.1 = key := by simpa using same
          exact others other member (by simp [here, equal])
        simp [absent, here]
      · have other : (compare entry.1 key == .eq) = false := by simpa using here
        rw [if_neg here, other]

/-- A pass over a map whose steps each touch only their own name has for every name the effect of
its own step. -/
theorem getElem?_foldl
    (steps : ∀ held name value (key : String), (step held name value)[key]? =
      if name = key then effect name value held[key]? else held[key]?)
    (map : Std.ExtTreeMap String β) (held : Std.ExtTreeMap String γ) (key : String) :
    (map.foldl step held)[key]? =
      map[key]?.elim held[key]? fun value => effect key value held[key]? := by
  rw [Std.ExtTreeMap.foldl_eq_foldl_toList,
    getElem?_foldl_entries effect steps Std.ExtTreeMap.distinct_keys_toList]
  cases found : map.toList.find? (compare ·.1 key == .eq) with
  | some entry =>
      have member := List.mem_of_find?_eq_some found
      have same : entry.1 = key := by simpa using List.find?_some found
      have there : map[key]? = some entry.2 := by
        rw [← same]
        exact Std.ExtTreeMap.mem_toList_iff_getElem?_eq_some.mp member
      rw [there, ← same]
      rfl
  | none =>
      have absent : map[key]? = none := by
        apply Option.eq_none_iff_forall_ne_some.mpr
        intro value there
        have member := Std.ExtTreeMap.mem_toList_iff_getElem?_eq_some.mpr there
        have other := List.find?_eq_none.mp found (key, value) member
        simp at other
      rw [absent]
      rfl

end Passes

theorem getElem?_restate (delta : KeyDelta) (properties : Properties) (name : String) :
    (delta.restate properties)[name]? = (properties[name]?.map some).or delta[name]? := by
  rw [restate, Std.ExtTreeMap.getElem?_union, Std.ExtTreeMap.getElem?_map]

/-- The names in the delta have the values that it gives them, and all others keep theirs. -/
theorem getElem?_apply (delta : KeyDelta) (properties : Properties) (name : String) :
    (delta.apply properties)[name]? = delta[name]?.getD properties[name]? := by
  rw [apply, getElem?_foldl (fun _ value _ => value) fun held name value key =>
    getElem?_set held name key value]
  cases delta[name]? <;> rfl

/-- The change between two maps leads from the first to the second. -/
theorem apply_between (old new : Properties) : (between old new).apply old = new := by
  apply Std.ExtTreeMap.ext_getElem?
  intro name
  rw [getElem?_apply, getElem?_between]
  split <;> simp_all

theorem isEmpty_between_iff {old new : Properties} : (between old new).isEmpty ↔ old = new := by
  rw [Std.ExtTreeMap.isEmpty_iff]
  constructor
  · intro none
    apply Std.ExtTreeMap.ext_getElem?
    intro name
    have absent := getElem?_between old new name
    rw [none] at absent
    split at absent
    case isTrue same => exact same
    case isFalse => simp at absent
  · rintro rfl
    apply Std.ExtTreeMap.ext_getElem?
    intro name
    simp [getElem?_between]

theorem apply_restate (old new : Properties) :
    ((between old new).restate new).apply old = new := by
  apply Std.ExtTreeMap.ext_getElem?
  intro name
  rw [getElem?_apply, getElem?_restate, getElem?_between]
  cases new[name]? with
  | some value => rfl
  | none => cases old[name]? <;> rfl

end KeyDelta

end SessionReplay
