import SessionReplay.Proofs.Capture.Naming

/-!
A second capture of what has not changed. By then all keys are known, so each node gets the id that
it has, no number is used up and no key is dropped. This goes for any graph of views, also one in
which views are reached twice; as long as no view lists a child twice, no node of the document has
two children with one id.
-/

namespace SessionReplay

namespace Capture

open SessionReplay.Identity (Counted Entry Key Registry)

theorem stands_siblings {source : View.Introspector}
    (apart : ∀ view, (source.children view).Nodup) {tree : Tree Sighting}
    (stands : Stands source tree) : ∀ part, Tree.Inside part tree →
      (part.children.map (·.data.key)).Nodup := by
  induction stands with
  | @element sighting element children text role kind first below induction =>
      intro part inside
      cases inside with
      | itself =>
          have views : ∀ child ∈ children, child.data.key.role = .view := by
            intro child member
            cases below child member with
            | element _ role => exact role
          have own : (children.map (·.data.key)).Nodup := by
            apply List.Nodup.of_map Key.view
            rw [List.map_map]
            exact first.sublist.nodup (apart _)
          have texts : ∀ node ∈ Surveyor.textNodes sighting.key.view sighting.face text,
              node.data.key = ⟨sighting.key.view, .text⟩ := by
            intro node member
            obtain ⟨content, -, rfl⟩ := List.mem_map.mp member
            rfl
          rw [Tree.children, List.map_append, List.nodup_append]
          refine ⟨?_, own, ?_⟩
          · cases text <;> simp [Surveyor.textNodes]
          · rintro key textMember other childMember rfl
            obtain ⟨node, member, rfl⟩ := List.mem_map.mp textMember
            obtain ⟨child, listed, same⟩ := List.mem_map.mp childMember
            have role := views child listed
            rw [same, texts node member] at role
            contradiction
      | inner member below =>
          rcases List.mem_append.mp member with text | child
          · obtain ⟨content, -, rfl⟩ := List.mem_map.mp text
            cases below with
            | itself => exact List.nodup_nil
            | inner none => contradiction
          · exact induction _ child part below

variable {settings : Settings} {source : View.Introspector} {registry : Registry}
variable {root : ViewHandle} {tick : UInt64}

theorem siblings_survey (apart : ∀ view, (source.children view).Nodup) (settings : Settings)
    (root : ViewHandle) : ∀ part,
      Tree.Inside part ((settings.surveyor source).survey root).1 →
      (part.children.map (·.data.key)).Nodup := by
  obtain ⟨face, child, top, -, -, stands⟩ := top_survey (settings.surveyor source) root
  rw [top]
  intro part inside
  cases inside with
  | itself => exact List.nodup_singleton _
  | inner member below =>
      rw [List.mem_singleton.mp member] at below
      exact stands_siblings apart stands part below

/-- No node of a capture has two children with one id when no view lists a child twice. -/
theorem apart_capture (counted : registry.exhausted = false → Counted registry)
    (apart : ∀ view, (source.children view).Nodup)
    (left : (capture settings source registry root tick).registry.exhausted = false)
    (part : Tree Node)
    (inside : Tree.Inside part (capture settings source registry root tick).tree) :
    (part.children.map (·.data.id)).Nodup := by
  have issued := issued_census settings source root counted
  rw [registry_capture, Registry.exhausted_endTick] at left
  have injective := (issued.counted left).injective
  rw [← map_node_census] at inside
  obtain ⟨former, within, rfl⟩ := Tree.inside_map.mp inside
  have keys := siblings_survey apart settings root (former.map Numbered.sighting) (by
    rw [← map_sighting_census registry]
    exact Tree.inside_map.mpr ⟨former, within, rfl⟩)
  rw [Tree.children_map, List.map_map] at keys ⊢
  have given : ∀ child ∈ former.children, child.data ∈
      (census settings source registry root).preorder := fun child member =>
    ((Tree.Inside.of_child member (.itself child)).trans within).data_mem
  simp only [Function.comp_def, Tree.data_map] at keys ⊢
  apply List.Nodup.map_on _ (List.Nodup.of_map _ keys)
  intro child member other otherMember same
  apply List.inj_on_of_nodup_map keys member otherMember
  exact injective _ _ _ _ (issued.given _ (given child member))
    (issued.given _ (given other otherMember)) same

theorem getElem?_registry_capture (counted : registry.exhausted = false → Counted registry)
    {key : Key} {entry : Entry} :
    (capture settings source registry root tick).registry.entries[key]? = some entry ↔
      ∃ seen ∈ (census settings source registry root).preorder,
        seen.sighting.key = key ∧ entry = ⟨seen.id, true⟩ := by
  have issued := issued_census settings source root counted
  rw [registry_capture, Registry.getElem?_endTick]
  constructor
  · obtain ⟨id, live⟩ := entry
    rintro ⟨present, rfl⟩
    obtain ⟨seen, member, own, rfl⟩ := issued.only key id present
    exact ⟨seen, member, own, rfl⟩
  · rintro ⟨seen, member, rfl, rfl⟩
    exact ⟨issued.given seen member, rfl⟩

/-- A census is what was seen, together with ids that depend on the keys alone. -/
theorem census_eq_map {idOf : Key → NodeId}
    (own : ∀ entry ∈ (census settings source registry root).preorder,
      entry.id = idOf entry.sighting.key) :
    census settings source registry root =
      ((settings.surveyor source).survey root).1.map fun sighting =>
        ⟨sighting, idOf sighting.key⟩ := by
  rw [← map_sighting_census registry, Tree.map_map]
  conv_lhs => rw [← Tree.map_id (census settings source registry root)]
  apply Tree.map_congr
  intro entry member
  rw [← own entry member]

/-- What is captured again gets the ids that it has. -/
theorem census_again (counted : registry.exhausted = false → Counted registry)
    (left : (capture settings source registry root tick).registry.exhausted = false) :
    census settings source (capture settings source registry root tick).registry root =
      census settings source registry root := by
  let idOf (key : Key) : NodeId :=
    (((capture settings source registry root tick).registry.get? key).getD default)
  have before : ∀ entry ∈ (census settings source registry root).preorder,
      entry.id = idOf entry.sighting.key := by
    intro entry member
    have known : (capture settings source registry root tick).registry.entries[
        entry.sighting.key]? = some ⟨entry.id, true⟩ :=
      (getElem?_registry_capture counted).mpr ⟨entry, member, rfl, rfl⟩
    simp only [idOf, Registry.get?, known, Option.map_some, Option.getD_some]
  have after : ∀ entry ∈ (census settings source
      (capture settings source registry root tick).registry root).preorder,
      entry.id = idOf entry.sighting.key := by
    intro entry member
    have seen : entry.sighting ∈ ((settings.surveyor source).survey root).1.preorder := by
      rw [← map_sighting_census (capture settings source registry root tick).registry,
        Tree.preorder_map]
      exact List.mem_map_of_mem member
    rw [← map_sighting_census registry, Tree.preorder_map] at seen
    obtain ⟨former, listed, same⟩ := List.mem_map.mp seen
    rw [id_kept counted left listed member (congrArg Sighting.key same.symm), before former listed,
      same]
  rw [census_eq_map before, census_eq_map after]

theorem tree_again (counted : registry.exhausted = false → Counted registry)
    (left : (capture settings source registry root tick).registry.exhausted = false)
    (later : UInt64) :
    (capture settings source (capture settings source registry root tick).registry root
      later).tree = (capture settings source registry root tick).tree := by
  rw [← map_node_census, ← map_node_census, census_again counted left]

/-- The nodes in `done` were known from before, so nothing but their marks has changed. -/
structure Unmoved (start : Registry) (registry : Registry) : Prop where
  next : registry.next = start.next
  retired : registry.retired = start.retired
  exhausted : registry.exhausted = start.exhausted
  size : registry.size = start.size
  held : ∀ key ∈ start.entries, key ∈ registry.entries

theorem unmoved_assign {start registry : Registry} {sighting : Sighting}
    (unmoved : Unmoved start registry) (known : sighting.key ∈ start.entries) :
    Unmoved start (assign sighting registry).2 := by
  have there := unmoved.held _ known
  rw [← Std.ExtTreeMap.isSome_getElem?_iff_mem] at there
  obtain ⟨entry, present⟩ := Option.isSome_iff_exists.mp there
  have result : registry.idFor sighting.key = (entry.id, { registry with
      entries := registry.entries.insert sighting.key ⟨entry.id, true⟩ }) := by
    unfold Registry.idFor
    rw [present]
  have size := Registry.size_idFor registry sighting.key
  rw [if_neg (by simp [Registry.get?, present])] at size
  rw [assign]
  constructor
  case size => exact size.trans unmoved.size
  case held =>
    intro key member
    rw [result]
    exact Std.ExtTreeMap.mem_insert.mpr (.inr (unmoved.held key member))
  all_goals rw [result]
  · exact unmoved.next
  · exact unmoved.retired
  · exact unmoved.exhausted

/-- Where all keys are known, their numbering uses nothing up. -/
theorem unmoved_numbered (known : ∀ entry ∈ (census settings source registry root).preorder,
    entry.sighting.key ∈ registry.entries) :
    Unmoved registry (numbered settings source registry root) := by
  have begun : Unmoved registry registry.beginTick := by
    refine ⟨rfl, rfl, rfl, registry.size_beginTick, fun key member => ?_⟩
    exact Std.ExtTreeMap.mem_map.mpr member
  have keeps : ∀ (sighting : Sighting) (done : List Numbered) (state : Registry),
      ((∀ entry ∈ done, entry.sighting.key ∈ registry.entries) → Unmoved registry state) →
      (∀ entry ∈ done ++ [(assign sighting state).1], entry.sighting.key ∈ registry.entries) →
        Unmoved registry (assign sighting state).2 := by
    intro sighting done state before known
    obtain ⟨former, new⟩ := List.forall_mem_append.mp known
    exact unmoved_assign (before former) (new _ (List.mem_singleton_self _))
  exact Tree.mapAccum_keeps keeps ((settings.surveyor source).survey root).1 []
    registry.beginTick (fun _ => begun) known

attribute [ext] Registry

/-- A second capture of the same views leaves the registry as the first left it. -/
theorem registry_again (counted : registry.exhausted = false → Counted registry)
    (left : (capture settings source registry root tick).registry.exhausted = false)
    (later : UInt64) :
    (capture settings source (capture settings source registry root tick).registry root
      later).registry = (capture settings source registry root tick).registry := by
  have again := census_again counted left
  have settled := counted_capture counted left
  have before : ∀ (key : Key) (entry : Entry),
      (capture settings source registry root tick).registry.entries[key]? = some entry ↔
        ∃ seen ∈ (census settings source registry root).preorder,
          seen.sighting.key = key ∧ entry = ⟨seen.id, true⟩ :=
    fun _ _ => getElem?_registry_capture counted
  generalize capture settings source registry root tick = first at again settled before ⊢
  have known : ∀ entry ∈ (census settings source first.registry root).preorder,
      entry.sighting.key ∈ first.registry.entries := by
    intro entry member
    rw [again] at member
    rw [← Std.ExtTreeMap.isSome_getElem?_iff_mem, (before _ _).mpr ⟨entry, member, rfl, rfl⟩]
    rfl
  have unmoved := unmoved_numbered known
  have last : (capture settings source first.registry root later).registry =
      (numbered settings source first.registry root).endTick.2 := registry_capture
  have entries : (capture settings source first.registry root later).registry.entries =
      first.registry.entries := by
    apply Std.ExtTreeMap.ext_getElem?
    intro key
    apply Option.ext
    intro entry
    rw [getElem?_registry_capture fun _ => settled, again, before]
  have size : (numbered settings source first.registry root).endTick.2.size =
      first.registry.size := by
    rw [← last, Registry.size, entries, Registry.size]
  -- All that is there after the numbering is there after the tick, so nothing counts as dropped.
  have dropped := (numbered settings source first.registry root).size_endTick
  rw [unmoved.size, size] at dropped
  have retired : (numbered settings source first.registry root).endTick.2.retired =
      first.registry.retired := by
    change (numbered settings source first.registry root).retired +
      (numbered settings source first.registry root).endTick.1 = _
    rw [unmoved.retired]
    omega
  apply Registry.ext
  · exact entries
  · rw [last]
    exact unmoved.next
  · rw [last]
    exact retired
  · rw [last]
    exact unmoved.exhausted

end Capture

end SessionReplay
