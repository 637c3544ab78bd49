import SessionReplay.Proofs.Capture.Numbering
import SessionReplay.Proofs.Capture.Reach
import SessionReplay.Proofs.Identity.Counting

/-!
The ids of a captured document. A key keeps the id that it had before, the registry knows exactly
the keys that were seen, and when no view is reached twice no two nodes have the same id.
-/

namespace SessionReplay.Capture

open SessionReplay.Identity (Counted Entry Key Registry)

/-- Where a numbering stands that began with `start`, when the nodes in `done` have their ids. -/
structure Issued (start : Registry) (done : List Numbered) (registry : Registry) : Prop where
  given : ∀ entry ∈ done, registry.entries[entry.sighting.key]? = some ⟨entry.id, true⟩
  only : ∀ (key : Key) (id : NodeId), registry.entries[key]? = some ⟨id, true⟩ →
    ∃ entry ∈ done, entry.sighting.key = key ∧ entry.id = id
  kept : ∀ (key : Key) (before : Entry), start.entries[key]? = some before →
    ∃ now, registry.entries[key]? = some now ∧ now.id = before.id
  counted : registry.exhausted = false → Counted registry

theorem issued_assign {start registry : Registry} {done : List Numbered} (sighting : Sighting)
    (issued : Issued start done registry) :
    Issued start (done ++ [(assign sighting registry).1]) (assign sighting registry).2 := by
  have found : ∀ key : Key, (assign sighting registry).2.entries[key]? =
      if sighting.key = key then some ⟨(assign sighting registry).1.id, true⟩
      else registry.entries[key]? := Registry.getElem?_idFor registry sighting.key
  have again : ∀ entry : Entry, registry.entries[sighting.key]? = some entry →
      (assign sighting registry).1.id = entry.id := fun entry known => Registry.idFor_known known
  constructor
  · intro entry member
    rw [found]
    rcases List.mem_append.mp member with before | new
    · have known := issued.given entry before
      split
      case isTrue same =>
        rw [← same] at known
        rw [again _ known]
      case isFalse => exact known
    · rw [List.mem_singleton.mp new]
      exact if_pos rfl
  · intro key id known
    rw [found] at known
    split at known
    case isTrue same =>
      cases known
      exact ⟨(assign sighting registry).1, by simp, same, rfl⟩
    case isFalse =>
      obtain ⟨entry, member, rest⟩ := issued.only key id known
      exact ⟨entry, List.mem_append_left _ member, rest⟩
  · intro key before known
    obtain ⟨now, present, same⟩ := issued.kept key before known
    rw [found]
    split
    case isTrue equal =>
      rw [← equal] at present
      exact ⟨_, rfl, (again now present).trans same⟩
    case isFalse => exact ⟨now, present, same⟩
  · intro left
    cases used : registry.exhausted with
    | true =>
        rw [assign, Registry.exhausted_idFor used] at left
        contradiction
    | false => exact Registry.counted_idFor (issued.counted used) left

variable {settings : Settings} {source : View.Introspector} {registry : Registry}
variable {root : ViewHandle} {tick : UInt64}

/-- The registry when all that was seen has its id. -/
def numbered (settings : Settings) (source : View.Introspector) (registry : Registry)
    (root : ViewHandle) : Registry :=
  (((settings.surveyor source).survey root).1.mapAccum assign registry.beginTick).2

theorem registry_capture : (capture settings source registry root tick).registry =
    (numbered settings source registry root).endTick.2 := by
  have step : number = fun sighting registry =>
      (Numbered.node (assign sighting registry).1, (assign sighting registry).2) := rfl
  have images := Tree.mapAccum_map assign Numbered.node
    ((settings.surveyor source).survey root).1 registry.beginTick
  rw [← step] at images
  have last := congrArg Prod.snd images
  dsimp only at last
  rw [numbered, ← last]
  rfl

theorem issued_beginTick (counted : registry.exhausted = false → Counted registry) :
    Issued registry.beginTick [] registry.beginTick where
  given entry absent := by contradiction
  only key id known := by
    have fresh := (Registry.getElem?_beginTick known).1
    contradiction
  kept key before known := ⟨before, known, rfl⟩
  counted left := Registry.counted_beginTick (counted left)

theorem issued_census (settings : Settings) (source : View.Introspector) (root : ViewHandle)
    (counted : registry.exhausted = false → Counted registry) :
    Issued registry.beginTick (census settings source registry root).preorder
      (numbered settings source registry root) := by
  have keeps : ∀ sighting done state, Issued registry.beginTick done state →
      Issued registry.beginTick (done ++ [(assign sighting state).1]) (assign sighting state).2 :=
    fun sighting done state => issued_assign sighting
  exact Tree.mapAccum_keeps keeps ((settings.surveyor source).survey root).1 [] registry.beginTick
    (issued_beginTick counted)

/-- A capture uses up no more ids than it has nodes. -/
theorem room_capture (settings : Settings) (source : View.Introspector) (root : ViewHandle)
    (tick : UInt64) (left : registry.exhausted = false)
    (room : registry.next.val.toNat + (census settings source registry root).preorder.length ≤
      4294967295) :
    (capture settings source registry root tick).registry.exhausted = false ∧
      (capture settings source registry root tick).registry.next.val.toNat ≤
        registry.next.val.toNat + (census settings source registry root).preorder.length := by
  have keeps : ∀ (sighting : Sighting) (done : List Numbered) (state : Registry),
      (registry.next.val.toNat + done.length ≤ 4294967295 → state.exhausted = false ∧
        state.next.val.toNat ≤ registry.next.val.toNat + done.length) →
      registry.next.val.toNat + (done ++ [(assign sighting state).1]).length ≤ 4294967295 →
        (assign sighting state).2.exhausted = false ∧ (assign sighting state).2.next.val.toNat ≤
          registry.next.val.toNat + (done ++ [(assign sighting state).1]).length := by
    intro sighting done state before enough
    rw [List.length_append, List.length_singleton] at enough ⊢
    obtain ⟨some, reached⟩ := before (by omega)
    have given := Registry.room_idFor sighting.key some (by omega)
    constructor
    · exact given.1
    · have more : (assign sighting state).2.next.val.toNat ≤ state.next.val.toNat + 1 := given.2
      omega
  have all := Tree.mapAccum_keeps keeps ((settings.surveyor source).survey root).1 []
    registry.beginTick (fun _ => ⟨left, Nat.le_refl _⟩) room
  rw [registry_capture]
  exact all

theorem counted_capture (counted : registry.exhausted = false → Counted registry)
    (left : (capture settings source registry root tick).registry.exhausted = false) :
    Counted (capture settings source registry root tick).registry := by
  rw [registry_capture] at left ⊢
  rw [Registry.exhausted_endTick] at left
  exact Registry.counted_endTick ((issued_census settings source root counted).counted left)

/-- A key keeps its id from one capture to the next. -/
theorem id_kept (counted : registry.exhausted = false → Counted registry)
    (left : (capture settings source registry root tick).registry.exhausted = false)
    {others : Settings} {later : View.Introspector} {start : ViewHandle} {former latter : Numbered}
    (before : former ∈ (census settings source registry root).preorder)
    (after : latter ∈ (census others later
      (capture settings source registry root tick).registry start).preorder)
    (same : latter.sighting.key = former.sighting.key) : latter.id = former.id := by
  have first := (issued_census settings source root counted).given former before
  have second := issued_census others later start fun _ => counted_capture counted left
  have begun : (capture settings source registry root tick).registry.beginTick.entries[
      former.sighting.key]? = some ⟨former.id, false⟩ := by
    have live := Registry.getElem?_endTick.mpr ⟨first, rfl⟩
    rw [registry_capture, Registry.beginTick, Std.ExtTreeMap.getElem?_map, live]
    rfl
  obtain ⟨now, present, kept⟩ := second.kept _ _ begun
  rw [← same, second.given latter after] at present
  cases present
  exact kept

theorem ids_capture : Document.ids (capture settings source registry root tick).tree =
    (census settings source registry root).preorder.map Numbered.id := by
  rw [Document.ids, ← map_node_census, Tree.preorder_map, List.map_map]
  rfl

/-- The registry knows only nodes of the document. -/
theorem mem_ids_capture (counted : registry.exhausted = false → Counted registry) {key : Key}
    {id : NodeId}
    (known : (capture settings source registry root tick).registry.get? key = some id) :
    id ∈ Document.ids (capture settings source registry root tick).tree := by
  rw [registry_capture, Registry.get?] at known
  obtain ⟨⟨_, live⟩, found, rfl⟩ := Option.map_eq_some_iff.mp known
  obtain ⟨present, rfl⟩ := Registry.getElem?_endTick.mp found
  obtain ⟨entry, member, -, same⟩ := (issued_census settings source root counted).only _ _ present
  rw [ids_capture, ← same]
  exact List.mem_map_of_mem member

theorem ids_capture_nodup (counted : registry.exhausted = false → Counted registry)
    (once : source.ReachesOnce root)
    (left : (capture settings source registry root tick).registry.exhausted = false) :
    (Document.ids (capture settings source registry root tick).tree).Nodup := by
  have issued := issued_census settings source root counted
  rw [registry_capture, Registry.exhausted_endTick] at left
  have distinct := (issued.counted left).injective
  have keys : ((census settings source registry root).preorder.map (·.sighting.key)).Nodup := by
    have seen := (settings.surveyor source).survey_keys_nodup once
    rw [Surveyor.keys, ← map_sighting_census registry, Tree.preorder_map,
      List.map_map] at seen
    exact seen
  rw [ids_capture]
  apply List.Nodup.map_on _ (List.Nodup.of_map _ keys)
  intro entry member other otherMember same
  apply List.inj_on_of_nodup_map keys member otherMember
  exact distinct _ _ _ _ (issued.given entry member) (issued.given other otherMember) same

end SessionReplay.Capture
