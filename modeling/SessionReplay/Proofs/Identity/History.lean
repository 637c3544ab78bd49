import SessionReplay.Proofs.Identity.Counting
import Mathlib.Algebra.Group.Nat.Defs
import Mathlib.Data.List.DropRight

/-!
The history of a registry, which may be asked for anything in any order, inside of ticks and
outside. What it holds follows from what it was asked for since the last reset: as long as the last
id has not been given away, every number from the first id up to the next one has been given to one
key only, and that key is still there or has been counted as dropped.
-/

namespace SessionReplay.Identity

inductive Operation where
  | idFor (key : Key)
  | get (key : Key)
  | beginTick
  | endTick
  | reset
deriving DecidableEq

namespace Registry

def apply (registry : Registry) : Operation → Registry
  | .idFor key => (registry.idFor key).2
  | .get _ => registry
  | .beginTick => registry.beginTick
  | .endTick => registry.endTick.2
  | .reset => registry.reset

def after (registry : Registry) (operations : List Operation) : Registry :=
  operations.foldl apply registry

end Registry

/-- An operation, with the registry that it was carried out on. -/
structure Step where
  before : Registry
  operation : Operation

namespace Step

def asked? (step : Step) : Option Key :=
  match step.operation with
  | .idFor key => some key
  | _ => none

/-- The id that was handed out. -/
def issued? (step : Step) : Option NodeId := step.asked?.map fun key => (step.before.idFor key).1

/-- The id that was handed out to a key that had none. -/
def allotted? (step : Step) : Option NodeId :=
  (step.asked?.filter fun key => (step.before.get? key).isNone).map fun key =>
    (step.before.idFor key).1

end Step

def steps (registry : Registry) : List Operation → List Step
  | [] => []
  | operation :: operations =>
      ⟨registry, operation⟩ :: steps (registry.apply operation) operations

def sinceReset (history : List Step) : List Step :=
  history.rtakeWhile fun step => step.operation ≠ .reset

def sinceBegin (history : List Step) : List Step :=
  history.rtakeWhile fun step => step.operation ≠ .beginTick

/-- The id from which a registry counts after these operations. -/
def origin (first : NodeId) (operations : List Operation) : NodeId :=
  if .reset ∈ operations then .first else first

/-- A key that was asked for since the last tick began. When no tick has begun, every key counts as
asked for. -/
def AskedFor (recent : List Step) (key : Key) : Prop :=
  (∃ step ∈ recent, step.operation = .beginTick) →
    key ∈ (sinceBegin recent).filterMap Step.asked?

/-- What a registry that counts from `base` has to show for its steps since the last reset. -/
structure Accounts (base : NodeId) (recent : List Step) (registry : Registry) : Prop where
  exhausted : registry.exhausted = true ↔ NodeId.last ∈ recent.filterMap Step.allotted?
  distinct : registry.exhausted = false → ∀ (key other : Key) (id : NodeId),
    registry.get? key = some id → registry.get? other = some id → key = other
  range : registry.exhausted = false → ∀ (key : Key) (id : NodeId),
    registry.get? key = some id → base.val ≤ id.val ∧ id.val < registry.next.val
  fresh : registry.exhausted = false → ∀ key : Key, registry.get? key = none →
    (registry.idFor key).1 ∉ recent.filterMap Step.issued?
  balance : registry.exhausted = false →
    registry.next.val.toNat = base.val.toNat + (registry.size + registry.retired)
  kept : ∀ (key : Key) (id : NodeId), registry.endTick.2.get? key = some id ↔
    registry.get? key = some id ∧ AskedFor recent key
  dropped : registry.size = registry.endTick.2.size + registry.endTick.1
  /-- The counter of ids moves by one or stays where it is, and never starts over. -/
  next : ∀ key : Key, (registry.idFor key).2.next.val.toNat =
    if registry.get? key = none ∧ registry.next ≠ .last then registry.next.val.toNat + 1
    else registry.next.val.toNat
  /-- Until the ids run out, all that was counted fits 32 bits. -/
  small : registry.exhausted = false → registry.size + registry.retired < 2 ^ 32
  /-- After that no count is ahead of the number of times that an id was asked for. -/
  calls : registry.size + registry.retired ≤ (recent.filterMap Step.issued?).length
  /-- So the count of dropped keys fits 64 bits as long as that number does. -/
  fits : (recent.filterMap Step.issued?).length < 2 ^ 64 → registry.endTick.2.retired < 2 ^ 64

namespace Registry

variable {registry : Registry} {key other : Key}

theorem get?_eq_none : registry.get? key = none ↔ registry.entries[key]? = none :=
  Option.map_eq_none_iff

theorem get?_eq_some {id : NodeId} :
    registry.get? key = some id ↔ ∃ entry, registry.entries[key]? = some entry ∧ entry.id = id :=
  Option.map_eq_some_iff

theorem exhausted_idFor_iff : (registry.idFor key).2.exhausted = true ↔
    registry.exhausted = true ∨ (registry.get? key = none ∧ registry.next = .last) := by
  rw [get?_eq_none]
  rcases registry.idFor_cases key with ⟨held, known, result⟩ | ⟨known, last, result⟩ |
    ⟨known, more, result⟩ <;> simp_all

theorem toNat_next_idFor (registry : Registry) (key : Key) :
    (registry.idFor key).2.next.val.toNat =
      if registry.get? key = none ∧ registry.next ≠ .last then registry.next.val.toNat + 1
      else registry.next.val.toNat := by
  rcases registry.idFor_cases key with ⟨held, known, result⟩ | ⟨known, last, result⟩ |
    ⟨known, more, result⟩
  · simp [get?, known, result]
  · simp [last, result]
  · simp [get?, known, more, result, toNat_succ more]

theorem size_idFor (registry : Registry) (key : Key) : (registry.idFor key).2.size =
    if registry.get? key = none then registry.size + 1 else registry.size := by
  rw [size, entries_idFor, Std.ExtTreeMap.size_insert, Std.ExtTreeMap.contains_eq_isSome_getElem?,
    get?]
  cases registry.entries[key]? <;> rfl

theorem retired_idFor (registry : Registry) (key : Key) :
    (registry.idFor key).2.retired = registry.retired := by
  rcases registry.idFor_cases key with ⟨held, known, result⟩ | ⟨known, last, result⟩ |
    ⟨known, more, result⟩ <;> rw [result]

theorem size_beginTick (registry : Registry) : registry.beginTick.size = registry.size :=
  Std.ExtTreeMap.size_map

theorem size_endTick (registry : Registry) :
    registry.size = registry.endTick.2.size + registry.endTick.1 := by
  have fewer : registry.endTick.2.size ≤ registry.size := Std.ExtTreeMap.size_filter_le_size
  change registry.size = registry.endTick.2.size + (registry.size - registry.endTick.2.size)
  omega

end Registry

section History

variable {recent : List Step} {step : Step} {key : Key}

theorem sinceReset_append (history : List Step) (step : Step) :
    sinceReset (history ++ [step]) =
      if step.operation = .reset then [] else sinceReset history ++ [step] := by
  rw [sinceReset, List.rtakeWhile_concat]
  by_cases reset : step.operation = .reset
  · simp [reset]
  · simp [reset, sinceReset]

theorem askedFor_append (other : step.operation ≠ .beginTick) :
    AskedFor (recent ++ [step]) key ↔ AskedFor recent key ∨ step.asked? = some key := by
  have since : sinceBegin (recent ++ [step]) = sinceBegin recent ++ [step] := by
    rw [sinceBegin, List.rtakeWhile_concat]
    simp [other, sinceBegin]
  have begun : (∃ one ∈ recent ++ [step], one.operation = .beginTick) ↔
      ∃ one ∈ recent, one.operation = .beginTick := by
    simp [other, or_and_right, exists_or]
  have now : key ∈ (sinceBegin recent ++ [step]).filterMap Step.asked? ↔
      key ∈ (sinceBegin recent).filterMap Step.asked? ∨ step.asked? = some key := by
    simp
  rw [AskedFor, AskedFor, since, begun, now]
  constructor
  · intro asked
    by_cases begun : ∃ one ∈ recent, one.operation = .beginTick
    · exact (asked begun).imp (fun before _ => before) id
    · exact .inl fun absurd => (begun absurd).elim
  · rintro (before | now) begun
    · exact .inl (before begun)
    · exact .inr now

theorem not_askedFor_begin (begin : step.operation = .beginTick) :
    ¬AskedFor (recent ++ [step]) key := by
  intro asked
  have since : sinceBegin (recent ++ [step]) = [] := by
    rw [sinceBegin, List.rtakeWhile_concat]
    simp [begin]
  have none := asked ⟨step, by simp, begin⟩
  rw [since] at none
  contradiction

theorem filterMap_append_step {β : Type} (f : Step → Option β) (recent : List Step)
    (step : Step) : (recent ++ [step]).filterMap f = recent.filterMap f ++ (f step).toList := by
  cases made : f step <;> simp [made]

/-- The accounts in terms of the entries, with the marks of what was asked for. -/
structure Ledger (base : NodeId) (recent : List Step) (registry : Registry) : Prop where
  exhausted : registry.exhausted = true ↔ NodeId.last ∈ recent.filterMap Step.allotted?
  counted : registry.exhausted = false → Counted registry
  above : registry.exhausted = false → ∀ (key : Key) (entry : Entry),
    registry.entries[key]? = some entry → base.val ≤ entry.id.val
  issued : registry.exhausted = false → ∀ id ∈ recent.filterMap Step.issued?,
    id.val < registry.next.val
  balance : registry.exhausted = false →
    registry.next.val.toNat = base.val.toNat + (registry.size + registry.retired)
  live : ∀ (key : Key) (entry : Entry), registry.entries[key]? = some entry →
    (entry.live = true ↔ AskedFor recent key)
  calls : registry.size + registry.retired ≤ (recent.filterMap Step.issued?).length

variable {base : NodeId} {registry : Registry}

theorem ledger_startingAt (first : NodeId) : Ledger first [] (.startingAt first) where
  exhausted := by simp [Registry.startingAt]
  counted _ := Registry.counted_startingAt first
  above _ key entry known := by
    rw [Registry.startingAt, Std.ExtTreeMap.getElem?_empty] at known
    contradiction
  issued _ := List.forall_mem_nil _
  balance _ := rfl
  live key entry known := by
    rw [Registry.startingAt, Std.ExtTreeMap.getElem?_empty] at known
    contradiction
  calls := Nat.le_refl 0

theorem Registry.next_le_idFor (registry : Registry) (key : Key) :
    registry.next.val ≤ (registry.idFor key).2.next.val := by
  rw [UInt32.le_iff_toNat_le, registry.toNat_next_idFor key]
  split <;> omega

theorem ledger_idFor (ledger : Ledger base recent registry) (key : Key) :
    Ledger base (recent ++ [Step.mk registry (.idFor key)]) (registry.idFor key).2 := by
  have issued : (recent ++ [Step.mk registry (.idFor key)]).filterMap Step.issued? =
      recent.filterMap Step.issued? ++ [(registry.idFor key).1] := filterMap_append_step _ _ _
  have before : (registry.idFor key).2.exhausted = false → registry.exhausted = false := by
    intro left
    rw [← Bool.not_eq_true] at left ⊢
    exact fun used => left (Registry.exhausted_idFor used)
  have counted := fun left => Registry.counted_idFor (ledger.counted (before left)) left
  constructor
  case exhausted =>
    rw [Registry.exhausted_idFor_iff, ledger.exhausted, filterMap_append_step, List.mem_append]
    apply or_congr_right
    have allotted : (Step.mk registry (.idFor key)).allotted? =
        if registry.get? key = none then some (registry.idFor key).1 else none := by
      cases known : registry.get? key <;>
        simp [Step.allotted?, Step.asked?, Option.filter_some, known]
    rw [allotted]
    by_cases unknown : registry.get? key = none
    · rw [if_pos unknown, Registry.idFor_new (Registry.get?_eq_none.mp unknown)]
      simp [unknown, eq_comm]
    · simp [unknown]
  case counted => exact counted
  case above =>
    intro left other entry found
    rw [Registry.getElem?_idFor] at found
    split at found
    case isTrue same =>
      cases found
      cases known : registry.entries[key]? with
      | some held =>
          rw [Registry.idFor_known known]
          exact ledger.above (before left) key held known
      | none =>
          have balance := ledger.balance (before left)
          rw [Registry.idFor_new known]
          change base.val ≤ registry.next.val
          rw [UInt32.le_iff_toNat_le]
          omega
    case isFalse => exact ledger.above (before left) other entry found
  case issued =>
    intro left id member
    rw [issued] at member
    rcases List.mem_append.mp member with earlier | now
    · exact UInt32.lt_of_lt_of_le (ledger.issued (before left) id earlier)
        (registry.next_le_idFor key)
    · rw [List.mem_singleton.mp now]
      apply (counted left).bounded key ⟨(registry.idFor key).1, true⟩
      rw [Registry.getElem?_idFor, if_pos rfl]
  case balance =>
    intro left
    have balance := ledger.balance (before left)
    have more : registry.get? key = none → registry.next ≠ .last := by
      intro unknown last
      rw [Registry.exhausted_idFor_iff.mpr (.inr ⟨unknown, last⟩)] at left
      contradiction
    rw [registry.toNat_next_idFor, registry.retired_idFor, registry.size_idFor]
    by_cases unknown : registry.get? key = none
    · rw [if_pos ⟨unknown, more unknown⟩, if_pos unknown]
      omega
    · rw [if_neg fun both => unknown both.1, if_neg unknown]
      exact balance
  case live =>
    intro other entry found
    rw [askedFor_append (by nofun)]
    rw [Registry.getElem?_idFor] at found
    split at found
    case isTrue same =>
      cases found
      simp [Step.asked?, same]
    case isFalse different =>
      rw [ledger.live other entry found]
      simp [Step.asked?, different]
  case calls =>
    have calls := ledger.calls
    rw [issued, List.length_append, List.length_singleton, registry.retired_idFor,
      registry.size_idFor]
    split <;> omega

/-- A step at which no id is handed out leaves the history of ids as it was. -/
theorem ledger_quiet (ledger : Ledger base recent registry) (step : Step) (after : Registry)
    (quiet : step.asked? = none)
    (exhausted : after.exhausted = registry.exhausted) (next : after.next = registry.next)
    (held : ∀ (key : Key) (entry : Entry), after.entries[key]? = some entry →
      ∃ before, registry.entries[key]? = some before ∧ before.id = entry.id)
    (total : after.size + after.retired = registry.size + registry.retired)
    (live : ∀ (key : Key) (entry : Entry), after.entries[key]? = some entry →
      (entry.live = true ↔ AskedFor (recent ++ [step]) key)) :
    Ledger base (recent ++ [step]) after := by
  have same : (recent ++ [step]).filterMap Step.issued? = recent.filterMap Step.issued? := by
    simp [Step.issued?, quiet]
  constructor
  case exhausted =>
    rw [exhausted, ledger.exhausted]
    simp [Step.allotted?, quiet]
  case counted =>
    rw [exhausted]
    intro left
    constructor
    · intro key entry known
      obtain ⟨before, present, id⟩ := held key entry known
      rw [next, ← id]
      exact (ledger.counted left).bounded key before present
    · intro key other entry another known also equal
      obtain ⟨before, present, id⟩ := held key entry known
      obtain ⟨former, there, otherId⟩ := held other another also
      exact (ledger.counted left).injective key other before former present there
        (id.trans (equal.trans otherId.symm))
  case above =>
    rw [exhausted]
    intro left key entry known
    obtain ⟨before, present, id⟩ := held key entry known
    rw [← id]
    exact ledger.above left key before present
  case issued =>
    rw [exhausted, same, next]
    exact ledger.issued
  case balance =>
    rw [exhausted, next, total]
    exact ledger.balance
  case live => exact live
  case calls =>
    rw [same, total]
    exact ledger.calls

theorem ledger_get (ledger : Ledger base recent registry) (key : Key) :
    Ledger base (recent ++ [Step.mk registry (.get key)]) registry := by
  apply ledger_quiet ledger (.mk registry (.get key)) registry rfl rfl rfl
  case held => exact fun _ entry known => ⟨entry, known, rfl⟩
  case total => rfl
  case live =>
    intro other entry known
    rw [askedFor_append (by nofun), ledger.live other entry known]
    simp [Step.asked?]

theorem ledger_beginTick (ledger : Ledger base recent registry) :
    Ledger base (recent ++ [Step.mk registry .beginTick]) registry.beginTick := by
  apply ledger_quiet ledger (.mk registry .beginTick) registry.beginTick rfl rfl rfl
  case held => exact fun _ entry known => (Registry.getElem?_beginTick known).2
  case total =>
    rw [registry.size_beginTick]
    rfl
  case live =>
    intro key entry known
    rw [(Registry.getElem?_beginTick known).1]
    exact iff_of_false Bool.false_ne_true (not_askedFor_begin rfl)

theorem ledger_endTick (ledger : Ledger base recent registry) :
    Ledger base (recent ++ [Step.mk registry .endTick]) registry.endTick.2 := by
  apply ledger_quiet ledger (.mk registry .endTick) registry.endTick.2 rfl rfl rfl
  case held => exact fun _ entry known => ⟨entry, (Registry.getElem?_endTick.mp known).1, rfl⟩
  case total =>
    have dropped := registry.size_endTick
    change registry.endTick.2.size + (registry.retired + registry.endTick.1) = _
    omega
  case live =>
    intro key entry known
    rw [askedFor_append (by nofun), ← ledger.live key entry (Registry.getElem?_endTick.mp known).1]
    simp [Step.asked?]

theorem ledger_apply (ledger : Ledger base recent registry) {operation : Operation}
    (goesOn : operation ≠ .reset) :
    Ledger base (recent ++ [Step.mk registry operation]) (registry.apply operation) := by
  cases operation with
  | idFor key => exact ledger_idFor ledger key
  | get key => exact ledger_get ledger key
  | beginTick => exact ledger_beginTick ledger
  | endTick => exact ledger_endTick ledger
  | reset => contradiction

theorem steps_append (registry : Registry) (operations : List Operation) (operation : Operation) :
    steps registry (operations ++ [operation]) =
      steps registry operations ++ [Step.mk (registry.after operations) operation] := by
  induction operations generalizing registry with
  | nil => rfl
  | cons first operations induction =>
      rw [List.cons_append, steps, steps, induction]
      rfl

theorem Registry.after_append (registry : Registry) (operations more : List Operation) :
    registry.after (operations ++ more) = (registry.after operations).after more :=
  List.foldl_append

/-- The ledger is right after anything that a registry was asked for. -/
theorem ledger_after (first : NodeId) (operations : List Operation) :
    Ledger (origin first operations) (sinceReset (steps (.startingAt first) operations))
      ((Registry.startingAt first).after operations) := by
  induction operations using List.reverseRecOn with
  | nil => exact ledger_startingAt first
  | append_singleton operations operation induction =>
      rw [steps_append, sinceReset_append, Registry.after_append]
      by_cases reset : operation = .reset
      · have restarted : origin first (operations ++ [operation]) = .first := by
          simp [origin, reset]
        rw [restarted, if_pos reset, reset]
        exact ledger_startingAt .first
      · have same : origin first (operations ++ [operation]) = origin first operations := by
          simp [origin, Ne.symm reset]
        rw [same, if_neg reset]
        exact ledger_apply induction reset

/-- A registry as it can come about. -/
def Reachable (registry : Registry) : Prop :=
  ∃ first operations, registry = (Registry.startingAt first).after operations

theorem Reachable.after (reachable : Reachable registry) (operations : List Operation) :
    Reachable (registry.after operations) := by
  obtain ⟨first, former, rfl⟩ := reachable
  exact ⟨first, former ++ operations, (Registry.after_append _ _ _).symm⟩

theorem Reachable.counted (reachable : Reachable registry) (left : registry.exhausted = false) :
    Counted registry := by
  obtain ⟨first, operations, rfl⟩ := reachable
  exact (ledger_after first operations).counted left

/-- What a registry can become without a reset: it holds ids that it held before, and ids that were
still to be given away. -/
structure Follows (former latter : Registry) : Prop where
  exhausted : former.exhausted = true → latter.exhausted = true
  next : former.next.val ≤ latter.next.val
  fresh : ∀ (key : Key) (id : NodeId), latter.get? key = some id →
    former.get? key = some id ∨ former.next.val ≤ id.val

theorem Follows.refl (registry : Registry) : Follows registry registry where
  exhausted used := used
  next := UInt32.le_refl _
  fresh _ _ known := .inl known

theorem Follows.trans {former latter : Registry} (first : Follows former registry)
    (second : Follows registry latter) : Follows former latter where
  exhausted used := second.exhausted (first.exhausted used)
  next := UInt32.le_trans first.next second.next
  fresh key id known := by
    rcases second.fresh key id known with before | above
    · exact first.fresh key id before
    · exact .inr (UInt32.le_trans first.next above)

theorem follows_idFor (registry : Registry) (key : Key) :
    Follows registry (registry.idFor key).2 where
  exhausted := Registry.exhausted_idFor
  next := registry.next_le_idFor key
  fresh other id known := by
    obtain ⟨entry, found, rfl⟩ := Registry.get?_eq_some.mp known
    rw [Registry.getElem?_idFor] at found
    split at found
    case isTrue same =>
      cases found
      cases held : registry.entries[key]? with
      | some before =>
          rw [Registry.idFor_known held, ← same]
          exact .inl (Registry.get?_eq_some.mpr ⟨before, held, rfl⟩)
      | none =>
          rw [Registry.idFor_new held]
          exact .inr (UInt32.le_refl _)
    case isFalse => exact .inl (Registry.get?_eq_some.mpr ⟨entry, found, rfl⟩)

theorem follows_apply (registry : Registry) {operation : Operation} (goesOn : operation ≠ .reset) :
    Follows registry (registry.apply operation) := by
  cases operation with
  | idFor key => exact follows_idFor registry key
  | get key => exact .refl registry
  | beginTick =>
      refine ⟨id, UInt32.le_refl _, ?_⟩
      intro key id known
      obtain ⟨entry, found, rfl⟩ := Registry.get?_eq_some.mp known
      obtain ⟨-, before⟩ := Registry.getElem?_beginTick found
      exact .inl (Registry.get?_eq_some.mpr before)
  | endTick =>
      refine ⟨id, UInt32.le_refl _, ?_⟩
      intro key id known
      obtain ⟨entry, found, same⟩ := Registry.get?_eq_some.mp known
      obtain ⟨before, -⟩ := Registry.getElem?_endTick.mp found
      exact .inl (Registry.get?_eq_some.mpr ⟨entry, before, same⟩)
  | reset => contradiction

theorem follows_after (registry : Registry) {operations : List Operation}
    (goesOn : .reset ∉ operations) : Follows registry (registry.after operations) := by
  induction operations generalizing registry with
  | nil => exact .refl registry
  | cons operation operations induction =>
      obtain ⟨first, others⟩ := List.ne_and_not_mem_of_not_mem_cons goesOn
      exact (follows_apply registry first.symm).trans (induction _ others)

end History

end SessionReplay.Identity
