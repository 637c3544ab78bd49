import SessionReplay.Identity.Registry

/-!
The ids of a registry. As long as it is not exhausted, all of them are below the next one and no
two keys have the same, whatever it is asked for.
-/

namespace SessionReplay.Identity

structure Counted (registry : Registry) : Prop where
  bounded : ∀ (key : Key) (entry : Entry), registry.entries[key]? = some entry →
    entry.id.val < registry.next.val
  injective : ∀ (key other : Key) (entry another : Entry), registry.entries[key]? = some entry →
    registry.entries[other]? = some another → entry.id = another.id → key = other

namespace Registry

variable {registry : Registry} {key other : Key}

/-- All that asking for an id can do. -/
theorem idFor_cases (registry : Registry) (key : Key) :
    (∃ held, registry.entries[key]? = some held ∧ registry.idFor key =
      (held.id, { registry with entries := registry.entries.insert key ⟨held.id, true⟩ })) ∨
    (registry.entries[key]? = none ∧ registry.next = .last ∧ registry.idFor key =
      (registry.next, { registry with
        entries := registry.entries.insert key ⟨registry.next, true⟩
        exhausted := true })) ∨
    (registry.entries[key]? = none ∧ registry.next ≠ .last ∧ registry.idFor key =
      (registry.next, { registry with
        entries := registry.entries.insert key ⟨registry.next, true⟩
        next := ⟨registry.next.val + 1⟩ })) := by
  cases known : registry.entries[key]? with
  | some held => exact .inl ⟨held, rfl, by simp only [idFor, known]⟩
  | none =>
      by_cases last : registry.next = .last
      · exact .inr (.inl ⟨rfl, last, by simp only [idFor, known, if_pos last]⟩)
      · exact .inr (.inr ⟨rfl, last, by simp only [idFor, known, if_neg last]⟩)

theorem toNat_succ {id : NodeId} (more : id ≠ .last) : (id.val + 1).toNat = id.val.toNat + 1 := by
  have below : id.val.toNat ≠ 4294967295 := by
    intro same
    apply more
    have value : id.val = 4294967295 := UInt32.toNat_inj.mp same
    cases id
    exact congrArg NodeId.mk value
  have bound := id.val.toNat_lt
  rw [UInt32.toNat_add]
  change (id.val.toNat + 1) % 2 ^ 32 = id.val.toNat + 1
  omega

theorem entries_idFor (registry : Registry) (key : Key) :
    (registry.idFor key).2.entries =
      registry.entries.insert key ⟨(registry.idFor key).1, true⟩ := by
  rcases registry.idFor_cases key with ⟨held, -, result⟩ | ⟨-, -, result⟩ | ⟨-, -, result⟩ <;>
    rw [result]

theorem getElem?_idFor (registry : Registry) (key other : Key) :
    (registry.idFor key).2.entries[other]? =
      if key = other then some ⟨(registry.idFor key).1, true⟩ else registry.entries[other]? := by
  rw [entries_idFor, Std.ExtTreeMap.getElem?_insert]
  by_cases same : key = other
  · rw [if_pos same, same, if_pos Std.ReflOrd.compare_self]
  · rw [if_neg same, if_neg fun equal => same (Std.LawfulEqOrd.eq_of_compare equal)]

theorem idFor_known {entry : Entry} (known : registry.entries[key]? = some entry) :
    (registry.idFor key).1 = entry.id := by
  unfold idFor
  rw [known]

theorem idFor_new (unknown : registry.entries[key]? = none) :
    (registry.idFor key).1 = registry.next := by
  unfold idFor
  rw [unknown]
  dsimp only
  split <;> rfl

theorem exhausted_idFor (exhausted : registry.exhausted = true) :
    (registry.idFor key).2.exhausted = true := by
  rcases registry.idFor_cases key with ⟨held, -, result⟩ | ⟨-, -, result⟩ | ⟨-, -, result⟩
  · rw [result]
    exact exhausted
  · rw [result]
  · rw [result]
    exact exhausted

theorem next_idFor_known {entry : Entry} (known : registry.entries[key]? = some entry) :
    (registry.idFor key).2.next = registry.next := by
  unfold idFor
  rw [known]

theorem next_idFor_new (unknown : registry.entries[key]? = none)
    (left : (registry.idFor key).2.exhausted = false) :
    registry.next.val < (registry.idFor key).2.next.val := by
  rcases registry.idFor_cases key with ⟨held, known, -⟩ | ⟨-, -, result⟩ | ⟨-, more, result⟩
  · rw [unknown] at known
    contradiction
  · rw [result] at left
    contradiction
  · rw [result, UInt32.lt_iff_toNat_lt]
    change registry.next.val.toNat < (registry.next.val + 1).toNat
    rw [toNat_succ more]
    exact Nat.lt_succ_self _

/-- An id is given away at a time, and there are as many as numbers up to the last. -/
theorem room_idFor (key : Key) (left : registry.exhausted = false)
    (room : registry.next.val.toNat < 4294967295) :
    (registry.idFor key).2.exhausted = false ∧
      (registry.idFor key).2.next.val.toNat ≤ registry.next.val.toNat + 1 := by
  rcases registry.idFor_cases key with ⟨held, -, result⟩ | ⟨-, last, -⟩ | ⟨-, more, result⟩
  · rw [result]
    exact ⟨left, Nat.le_succ _⟩
  · rw [last] at room
    contradiction
  · rw [result]
    exact ⟨left, Nat.le_of_eq (toNat_succ more)⟩

theorem counted_startingAt (first : NodeId) : Counted (startingAt first) where
  bounded := by
    intro key entry known
    rw [startingAt, Std.ExtTreeMap.getElem?_empty] at known
    contradiction
  injective := by
    intro key other entry another known
    rw [startingAt, Std.ExtTreeMap.getElem?_empty] at known
    contradiction

theorem counted_idFor (counted : Counted registry)
    (left : (registry.idFor key).2.exhausted = false) : Counted (registry.idFor key).2 := by
  have given : ∀ (other : Key) (entry : Entry),
      (registry.idFor key).2.entries[other]? = some entry →
      (other = key ∧ entry.id = (registry.idFor key).1) ∨
        registry.entries[other]? = some entry := by
    intro other entry found
    rw [getElem?_idFor] at found
    split at found
    case isTrue same =>
      cases found
      exact .inl ⟨same.symm, rfl⟩
    case isFalse => exact .inr found
  cases known : registry.entries[key]? with
  | some held =>
      have id := idFor_known known
      have stays : ∀ (other : Key) (entry : Entry),
          (registry.idFor key).2.entries[other]? = some entry →
          ∃ before, registry.entries[other]? = some before ∧ before.id = entry.id := by
        intro other entry found
        rcases given other entry found with ⟨rfl, same⟩ | before
        · exact ⟨held, known, (same.trans id).symm⟩
        · exact ⟨entry, before, rfl⟩
      constructor
      · intro other entry found
        obtain ⟨before, present, same⟩ := stays other entry found
        rw [next_idFor_known known, ← same]
        exact counted.bounded other before present
      · intro one two entry another first second same
        obtain ⟨before, present, same₁⟩ := stays one entry first
        obtain ⟨former, there, same₂⟩ := stays two another second
        exact counted.injective one two before former present there
          (same₁.trans (same.trans same₂.symm))
  | none =>
      have id := idFor_new known
      have more := next_idFor_new known left
      constructor
      · intro other entry found
        rcases given other entry found with ⟨rfl, same⟩ | before
        · rw [same, id]
          exact more
        · exact UInt32.lt_trans (counted.bounded other entry before) more
      · intro one two entry another first second same
        rcases given one entry first with ⟨rfl, new⟩ | before
        · rcases given two another second with ⟨rfl, -⟩ | former
          · rfl
          · have below := counted.bounded two another former
            rw [← same, new, id] at below
            exact absurd below (UInt32.lt_irrefl _)
        · rcases given two another second with ⟨rfl, new⟩ | former
          · have below := counted.bounded one entry before
            rw [same, new, id] at below
            exact absurd below (UInt32.lt_irrefl _)
          · exact counted.injective one two entry another before former same

theorem getElem?_beginTick {entry : Entry} (known : registry.beginTick.entries[key]? = some entry) :
    entry.live = false ∧ ∃ before, registry.entries[key]? = some before ∧ before.id = entry.id := by
  rw [beginTick, Std.ExtTreeMap.getElem?_map] at known
  obtain ⟨before, present, rfl⟩ := Option.map_eq_some_iff.mp known
  exact ⟨rfl, before, present, rfl⟩

theorem counted_beginTick (counted : Counted registry) : Counted registry.beginTick where
  bounded := by
    intro key entry known
    obtain ⟨-, before, present, same⟩ := getElem?_beginTick known
    rw [← same]
    exact counted.bounded key before present
  injective := by
    intro key other entry another known also same
    obtain ⟨-, before, present, first⟩ := getElem?_beginTick known
    obtain ⟨-, former, there, second⟩ := getElem?_beginTick also
    exact counted.injective key other before former present there
      (first.trans (same.trans second.symm))

theorem exhausted_endTick (registry : Registry) :
    registry.endTick.2.exhausted = registry.exhausted := rfl

theorem getElem?_endTick {entry : Entry} :
    registry.endTick.2.entries[key]? = some entry ↔
      registry.entries[key]? = some entry ∧ entry.live = true := by
  rw [endTick, Std.ExtTreeMap.getElem?_filter', Option.filter_eq_some_iff]

theorem counted_endTick (counted : Counted registry) : Counted registry.endTick.2 where
  bounded := by
    intro key entry known
    exact counted.bounded key entry (getElem?_endTick.mp known).1
  injective := by
    intro key other entry another known also
    exact counted.injective key other entry another (getElem?_endTick.mp known).1
      (getElem?_endTick.mp also).1

end Registry

end SessionReplay.Identity
