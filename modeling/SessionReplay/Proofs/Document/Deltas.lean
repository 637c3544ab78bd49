import SessionReplay.Proofs.Document.Replaying

/-!
The change between two maps is the least one that leads from the first to the second. Two passes
write it, one over each map. Every change with the same effect holds all of it, and what else such
a change holds is what the new map has anyway, so that a change may state any names of the new map
again.
-/

namespace SessionReplay

namespace KeyDelta

/-- Whatever the first map holds for a name, the second holds too. -/
def Within {β : Type} (part whole : Std.ExtTreeMap String β) : Prop :=
  ∀ (name : String) (value : β), part[name]? = some value → whole[name]? = some value

/-- Writes for one name what there is to write. -/
def noteOne (change : String → String → Option (Option String)) (delta : KeyDelta)
    (name value : String) : KeyDelta :=
  match change name value with
  | some change => delta.insert name change
  | none => delta

/-- A pass over a map that writes into a delta as it goes. -/
def note (change : String → String → Option (Option String)) (properties : Properties)
    (delta : KeyDelta) : KeyDelta :=
  properties.foldl (noteOne change) delta

/-- The names of the new map that are new or have another value, and after them the names that the
new map lacks. -/
def noted (old new : Properties) : KeyDelta :=
  let kept := note (fun name value => if old[name]? = some value then none else some (some value))
    new ∅
  note (fun name _ => if new.contains name then none else some none) old kept

section Passes

variable {change : String → String → Option (Option String)}

theorem getElem?_noteOne (delta : KeyDelta) (name key value : String) :
    (noteOne change delta name value)[key]? =
      if name = key then (change name value).or delta[key]? else delta[key]? := by
  cases written : change name value with
  | none => simp [noteOne, written]
  | some after => simp [noteOne, written, Std.ExtTreeMap.getElem?_insert]

/-- After a pass a name has what was written for it. -/
theorem getElem?_note (properties : Properties) (delta : KeyDelta) (key : String) :
    (note change properties delta)[key]? =
      (properties[key]?.bind (change key)).or delta[key]? := by
  rw [note, getElem?_foldl (fun name value held => (change name value).or held)
    fun delta name value key => getElem?_noteOne delta name key value]
  cases properties[key]? <;> rfl

end Passes

/-- The two passes meet every name that differs, and write for it what the new map has. -/
theorem noted_eq_between (old new : Properties) : noted old new = between old new := by
  apply Std.ExtTreeMap.ext_getElem?
  intro name
  rw [noted, getElem?_note, getElem?_note, getElem?_between,
    Std.ExtTreeMap.contains_eq_isSome_getElem?]
  cases old[name]? <;> cases new[name]? <;> simp

section Effect

variable {delta : KeyDelta} {old new : Properties}

/-- A delta leads from one map to another if it holds the change between them and states nothing
that the new map does not have. -/
theorem apply_eq_iff : delta.apply old = new ↔ Within (between old new) delta ∧
    ∀ (name : String) (value : Option String),
      delta[name]? = some value → new[name]? = value := by
  constructor
  · intro leads
    have held : ∀ name : String, delta[name]?.getD old[name]? = new[name]? := by
      intro name
      rw [← leads, getElem?_apply]
    constructor
    · intro name value needed
      rw [getElem?_between] at needed
      obtain ⟨differs, same⟩ := Option.ite_none_left_eq_some.mp needed
      have effect := held name
      cases stated : delta[name]? with
      | none =>
          rw [stated] at effect
          exact absurd effect differs
      | some other =>
          rw [stated] at effect
          rw [← same, ← effect]
          rfl
    · intro name value stated
      rw [← held name, stated]
      rfl
  · intro both
    obtain ⟨whole, true⟩ := both
    apply Std.ExtTreeMap.ext_getElem?
    intro name
    rw [getElem?_apply]
    cases stated : delta[name]? with
    | some value => exact (true name value stated).symm
    | none =>
        by_cases same : old[name]? = new[name]?
        · exact same
        · have needed := getElem?_between old new name
          rw [if_neg same] at needed
          rw [whole name _ needed] at stated
          contradiction

/-- What the new map has for some names can be stated again. -/
theorem apply_restate_within {part : Properties} (leads : delta.apply old = new)
    (inside : Within part new) : (delta.restate part).apply old = new := by
  apply Std.ExtTreeMap.ext_getElem?
  intro name
  rw [getElem?_apply, getElem?_restate]
  cases again : part[name]? with
  | some value => exact (inside name value again).symm
  | none =>
      rw [← leads, getElem?_apply]
      rfl

end Effect

/-- What the two passes write leads from the old map to the new one, is part of every delta that
does, and goes on leading there when it states names of the new map again, as it does for all of
them when the masking changes. -/
theorem noted_least (old new : Properties) :
    noted old new = between old new ∧ (between old new).apply old = new ∧
      (∀ delta : KeyDelta, delta.apply old = new → Within (between old new) delta) ∧
      (∀ part, Within part new → ((between old new).restate part).apply old = new) ∧
      ∀ flipped, (Document.attributeDelta flipped old new).apply old = new := by
  have leads := apply_between old new
  constructor
  · exact noted_eq_between old new
  constructor
  · exact leads
  constructor
  · intro delta same
    exact (apply_eq_iff.mp same).1
  constructor
  · intro part inside
    exact apply_restate_within leads inside
  · intro flipped
    exact Document.apply_attributeDelta flipped old new

end KeyDelta

end SessionReplay
