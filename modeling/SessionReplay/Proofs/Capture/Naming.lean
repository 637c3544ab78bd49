import SessionReplay.Proofs.Capture.Issuing
import SessionReplay.Proofs.Identity.History

/-!
What the registry holds after a capture. A capture asks it for the keys of what was seen, in
document order, and lets go of all others. Each node of the document then has its key in the
registry and there is nothing else in it.
-/

namespace SessionReplay.Capture

open SessionReplay.Identity (Follows Key Operation Reachable Registry follows_after)

/-- What is seen of a view: an element, then its text, then what is seen of its first children. -/
inductive Stands (source : View.Introspector) : Tree Sighting → Prop
  | element {sighting : Sighting} {element : Element} {children : List (Tree Sighting)}
      (text : Option String) (role : sighting.key.role = .view)
      (kind : sighting.face.kind = .element element)
      (first : children.map (·.data.key.view) <+: source.children sighting.key.view)
      (below : ∀ child ∈ children, Stands source child) :
      Stands source (.node sighting
        (Surveyor.textNodes sighting.key.view sighting.face text ++ children))

namespace Surveyor

variable {surveyor : Surveyor}

theorem map_view_of_forall₂ {property : ViewHandle → Tree Sighting → Prop}
    {seen : List ViewHandle} {trees : List (Tree Sighting)}
    (own : ∀ view tree, property view tree → tree.data.key.view = view)
    (all : List.Forall₂ property seen trees) : trees.map (·.data.key.view) = seen := by
  induction all with
  | nil => rfl
  | cons here _ induction => rw [List.map_cons, induction, own _ _ here]

theorem stands_alone {sighting : Sighting} {element : Element} (role : sighting.key.role = .view)
    (kind : sighting.face.kind = .element element) :
    Stands surveyor.source (.node sighting []) :=
  .element none role kind List.nil_prefix (List.forall_mem_nil _)

theorem stands_visit (levels depth : Nat) (place : Placement) (inherited : List Masking)
    (view : ViewHandle) (tally : Tally) :
    (surveyor.visit levels depth place inherited view tally).1.data.key = ⟨view, .view⟩ ∧
      Stands surveyor.source (surveyor.visit levels depth place inherited view tally).1 := by
  apply visit_induction (motive := fun _ _ _ _ view tree =>
    tree.data.key = ⟨view, .view⟩ ∧ Stands surveyor.source tree)
  case terminal =>
    intro levels depth place inherited view limit tally
    exact ⟨rfl, stands_alone rfl rfl⟩
  case placeholder =>
    intro levels depth place inherited view frame paint reports tally fails
    exact ⟨rfl, stands_alone rfl rfl⟩
  case element =>
    intro levels depth place inherited view kind portrait seen children told answered first below
      face reports
    refine ⟨rfl, .element portrait.text rfl rfl ?_ ?_⟩
    · rw [map_view_of_forall₂ (fun _ _ known => congrArg Key.view known.1) below]
      exact first
    · intro child member
      obtain ⟨view, -, -, stands⟩ := exists_of_forall₂ below member
      exact stands

end Surveyor

/-- What is asked of the registry for a node. -/
def Numbered.asks (entry : Numbered) : Operation := .idFor entry.sighting.key

/-- The nodes in `done` have been asked for one after the other, with everything in its place each
time. -/
structure Handed (start : Registry) (done : List Numbered) (registry : Registry) : Prop where
  registry : registry = start.after (done.map Numbered.asks)
  issued : ∀ former, former <+: done → Issued start former (start.after (former.map Numbered.asks))

theorem handed_assign {start registry : Registry} {done : List Numbered} (sighting : Sighting)
    (handed : Handed start done registry) :
    Handed start (done ++ [(assign sighting registry).1]) (assign sighting registry).2 := by
  have after : (assign sighting registry).2 =
      start.after ((done ++ [(assign sighting registry).1]).map Numbered.asks) := by
    rw [List.map_append, Registry.after_append, ← handed.registry]
    rfl
  constructor
  · exact after
  · intro former first
    rcases List.prefix_concat_iff.mp first with rfl | before
    · have issued := handed.issued done List.prefix_rfl
      rw [← handed.registry] at issued
      rw [← after]
      exact issued_assign sighting issued
    · exact handed.issued former before

variable {settings : Settings} {source : View.Introspector} {registry : Registry}
variable {root : ViewHandle} {tick : UInt64}

theorem handed_census (settings : Settings) (source : View.Introspector) (root : ViewHandle)
    (reachable : Reachable registry) :
    Handed registry.beginTick (census settings source registry root).preorder
      (numbered settings source registry root) := by
  have begun : Handed registry.beginTick [] registry.beginTick := by
    constructor
    · rfl
    · intro former first
      rw [List.prefix_nil.mp first]
      exact issued_beginTick reachable.counted
  exact Tree.mapAccum_keeps (fun sighting _ _ => handed_assign sighting)
    ((settings.surveyor source).survey root).1 [] registry.beginTick begun

/-- All that a capture asks of the registry. -/
def asked (settings : Settings) (source : View.Introspector) (registry : Registry)
    (root : ViewHandle) : List Operation :=
  .beginTick ::
    ((census settings source registry root).preorder.map Numbered.asks ++ [.endTick])

theorem registry_capture_after (reachable : Reachable registry) :
    (capture settings source registry root tick).registry =
      registry.after (asked settings source registry root) := by
  have handed := (handed_census settings source root reachable).registry
  rw [registry_capture, handed, asked, ← List.singleton_append, Registry.after_append,
    Registry.after_append]
  rfl

theorem reachable_capture (reachable : Reachable registry) :
    Reachable (capture settings source registry root tick).registry := by
  rw [registry_capture_after reachable]
  exact reachable.after _

/-- After a capture the registry holds the keys of what was seen, and no others. -/
theorem get?_capture (reachable : Reachable registry) {key : Key} {id : NodeId} :
    (capture settings source registry root tick).registry.get? key = some id ↔
      ∃ entry ∈ (census settings source registry root).preorder,
        entry.sighting.key = key ∧ entry.id = id := by
  have issued := issued_census settings source root reachable.counted
  rw [registry_capture, Registry.get?_eq_some]
  constructor
  · rintro ⟨⟨_, live⟩, found, rfl⟩
    obtain ⟨present, rfl⟩ := Registry.getElem?_endTick.mp found
    exact issued.only _ _ present
  · rintro ⟨entry, member, rfl, rfl⟩
    exact ⟨_, Registry.getElem?_endTick.mpr ⟨issued.given entry member, rfl⟩, rfl⟩

/-- The registry at the turn of the node that comes after these. -/
def atTurn (registry : Registry) (former : List Numbered) : Registry :=
  registry.beginTick.after (former.map Numbered.asks)

theorem get?_atTurn {former : List Numbered} {key : Key} (unknown : registry.get? key = none)
    (others : ∀ entry ∈ former, entry.sighting.key ≠ key) :
    (atTurn registry former).get? key = none := by
  have begun : registry.beginTick.get? key = none := by
    rw [Registry.get?_eq_none] at unknown ⊢
    rw [Registry.beginTick, Std.ExtTreeMap.getElem?_map, unknown]
    rfl
  rw [atTurn]
  generalize registry.beginTick = state at begun
  induction former generalizing state with
  | nil => exact begun
  | cons entry former induction =>
      obtain ⟨different, others⟩ := List.forall_mem_cons.mp others
      apply induction others
      change (state.idFor entry.sighting.key).2.get? key = none
      rw [Registry.get?_eq_none] at begun ⊢
      rw [Registry.getElem?_idFor, if_neg different]
      exact begun

theorem follows_atTurn (registry : Registry) (former : List Numbered) :
    Follows registry (atTurn registry former) := by
  have goesOn : Operation.reset ∉ Operation.beginTick :: former.map Numbered.asks := by
    simp [Numbered.asks]
  exact follows_after registry goesOn

theorem atTurn_follows (reachable : Reachable registry) {former latter : List Numbered}
    (split : (census settings source registry root).preorder = former ++ latter) :
    Follows (atTurn registry former) (capture settings source registry root tick).registry := by
  have goesOn : Operation.reset ∉ latter.map Numbered.asks ++ [.endTick] := by
    simp [Numbered.asks]
  have rest : (capture settings source registry root tick).registry =
      (atTurn registry former).after (latter.map Numbered.asks ++ [.endTick]) := by
    rw [registry_capture_after reachable, asked, split, List.map_append, List.append_assoc,
      atTurn, ← Registry.after_append]
    rfl
  rw [rest]
  exact follows_after _ goesOn

theorem id_atTurn (reachable : Reachable registry) {former latter : List Numbered}
    {entry : Numbered}
    (split : (census settings source registry root).preorder = former ++ entry :: latter) :
    entry.id = ((atTurn registry former).idFor entry.sighting.key).1 := by
  have handed := handed_census settings source root reachable
  rw [split, List.append_cons] at handed
  have known := (handed.issued (former ++ [entry]) (List.prefix_append _ _)).given entry (by simp)
  rw [List.map_append, Registry.after_append] at known
  change ((atTurn registry former).idFor entry.sighting.key).2.entries[entry.sighting.key]? = _
    at known
  rw [Registry.getElem?_idFor, if_pos rfl] at known
  exact (congrArg Identity.Entry.id (Option.some.inj known)).symm

/-- A key that the registry did not know gets an id above all that were given away. -/
theorem id_new (reachable : Reachable registry)
    (left : (capture settings source registry root tick).registry.exhausted = false)
    {former latter : List Numbered} {entry : Numbered}
    (split : (census settings source registry root).preorder = former ++ entry :: latter)
    (unknown : registry.get? entry.sighting.key = none)
    (first : ∀ other ∈ former, other.sighting.key ≠ entry.sighting.key) :
    registry.next.val ≤ entry.id.val ∧ ∀ other ∈ former, other.id.val < entry.id.val := by
  have own : entry.id = (atTurn registry former).next := by
    rw [id_atTurn reachable split]
    exact Registry.idFor_new (Registry.get?_eq_none.mp (get?_atTurn unknown first))
  have some : (atTurn registry former).exhausted = false := by
    rw [← Bool.not_eq_true] at left ⊢
    exact fun used => left ((atTurn_follows reachable split).exhausted used)
  have handed := handed_census settings source root reachable
  rw [split] at handed
  have issued := handed.issued former (List.prefix_append _ _)
  rw [own]
  constructor
  · exact (follows_atTurn registry former).next
  · intro other member
    exact (issued.counted some).bounded _ _ (issued.given other member)

theorem keys_census_nodup (once : source.ReachesOnce root) :
    ((census settings source registry root).preorder.map (·.sighting.key)).Nodup := by
  have seen := (settings.surveyor source).survey_keys_nodup once
  rw [Surveyor.keys, ← map_sighting_census registry, Tree.preorder_map, List.map_map] at seen
  exact seen

/-- What a capture of this root has to show, given what was seen and the ids it was given. -/
structure Named (source : View.Introspector) (root : ViewHandle) (seen : Tree Numbered)
    (outcome : Outcome) : Prop where
  nodes : seen.map Numbered.node = outcome.tree
  /-- The document has its root's document key, and the root view stands in it. -/
  top : ∃ face child,
    seen.map Numbered.sighting = .node { key := ⟨root, .document⟩, face } [child] ∧
      face.kind = .document ∧ child.data.key = ⟨root, .view⟩ ∧ Stands source child
  distinct : (Document.ids outcome.tree).Nodup
  keys : (seen.preorder.map (·.sighting.key)).Nodup
  held : ∀ (key : Key) (id : NodeId), outcome.registry.get? key = some id ↔
    ∃ entry ∈ seen.preorder, entry.sighting.key = key ∧ entry.id = id
  size : outcome.registry.size = outcome.tree.size

theorem size_capture (reachable : Reachable registry) (once : source.ReachesOnce root) :
    (capture settings source registry root tick).registry.size =
      (capture settings source registry root tick).tree.size := by
  have held : ∀ (key : Key) (id : NodeId),
      (capture settings source registry root tick).registry.get? key = some id ↔
        ∃ entry ∈ (census settings source registry root).preorder,
          entry.sighting.key = key ∧ entry.id = id := fun _ _ => get?_capture reachable
  have same : (capture settings source registry root tick).registry.entries.keys.Perm
      ((census settings source registry root).preorder.map (·.sighting.key)) := by
    apply (List.perm_ext_iff_of_nodup Std.ExtTreeMap.nodup_keys (keys_census_nodup once)).mpr
    intro key
    rw [Std.ExtTreeMap.mem_keys, ← Std.ExtTreeMap.isSome_getElem?_iff_mem, Option.isSome_iff_exists,
      List.mem_map]
    constructor
    · rintro ⟨present, known⟩
      obtain ⟨entry, member, own, -⟩ :=
        (held key present.id).mp (Registry.get?_eq_some.mpr ⟨present, known, rfl⟩)
      exact ⟨entry, member, own⟩
    · rintro ⟨entry, member, rfl⟩
      obtain ⟨present, known, -⟩ := Registry.get?_eq_some.mp
        ((held entry.sighting.key entry.id).mpr ⟨entry, member, rfl, rfl⟩)
      exact ⟨present, known⟩
  rw [Registry.size, ← Std.ExtTreeMap.length_keys, same.length_eq, List.length_map,
    ← Tree.length_preorder, ← map_node_census, Tree.preorder_map, List.length_map]

theorem top_survey (surveyor : Surveyor) (root : ViewHandle) :
    ∃ face child, (surveyor.survey root).1 = .node { key := ⟨root, .document⟩, face } [child] ∧
      face.kind = .document ∧ child.data.key = ⟨root, .view⟩ ∧ Stands surveyor.source child := by
  obtain ⟨key, stands⟩ := surveyor.stands_visit (surveyor.limits.maxDepth.toNat - 1) 1
    ⟨.identity, (answerOr .zero .geometry (surveyor.source.frame root)).1.sanitize⟩ [] root
    (Tally.count 0 {})
  exact ⟨_, _, rfl, rfl, key, stands⟩

/-- The document of a capture always has the root view, and nothing beside it. -/
theorem single_capture (settings : Settings) (source : View.Introspector) (registry : Registry)
    (root : ViewHandle) (tick : UInt64) :
    ∃ node view, (capture settings source registry root tick).tree = .node node [view] := by
  obtain ⟨face, child, single, -⟩ := top_survey (settings.surveyor source) root
  have seen : (census settings source registry root).map Numbered.sighting = _ :=
    (map_sighting_census registry).trans single
  rw [← map_node_census]
  generalize census settings source registry root = tree at seen
  obtain ⟨entry, children⟩ := tree
  rw [Tree.map_node] at seen ⊢
  obtain ⟨view, rfl, -⟩ := List.map_eq_singleton_iff.mp (Tree.node.inj seen).2
  exact ⟨_, _, rfl⟩

/-- One mapping for each node, and each node its own id. -/
theorem named_capture (settings : Settings) (source : View.Introspector) (registry : Registry)
    (root : ViewHandle) (tick : UInt64) (reachable : Reachable registry)
    (once : source.ReachesOnce root)
    (left : (capture settings source registry root tick).registry.exhausted = false) :
    Named source root (census settings source registry root)
      (capture settings source registry root tick) where
  nodes := map_node_census tick
  top := by
    rw [map_sighting_census]
    exact top_survey (settings.surveyor source) root
  distinct := ids_capture_nodup reachable.counted once left
  keys := keys_census_nodup once
  held _ _ := get?_capture reachable
  size := size_capture reachable once

/-- A container with a text and a view that cannot be looked into. -/
def gallery : View.Introspector where
  kind view :=
    if view = ⟨1⟩ then .ok .container else if view = ⟨2⟩ then .ok .text else .error .detached
  frame _ := .ok .zero
  clip _ := .ok none
  paint _ := .ok {}
  text _ := .ok (some { text := "a caption" })
  image _ := .ok none
  children view := if view = ⟨1⟩ then [⟨2⟩, ⟨3⟩] else []
  masking _ := none

theorem gallery_reachesOnce : gallery.ReachesOnce ⟨1⟩ := by
  apply View.Introspector.reachesOnce_of_leaves
  · decide
  · decide

/-- One view of the gallery is known from before, and one that was known is gone. -/
def visited : Registry :=
  Registry.new.after [.beginTick, .idFor ⟨⟨3⟩, .view⟩, .idFor ⟨⟨4⟩, .view⟩, .endTick]

theorem named_capture_gallery : Reachable visited ∧ gallery.ReachesOnce ⟨1⟩ ∧
    (capture {} gallery visited ⟨1⟩ 0).registry.exhausted = false ∧
    Named gallery ⟨1⟩ (census {} gallery visited ⟨1⟩) (capture {} gallery visited ⟨1⟩ 0) := by
  have reachable : Reachable visited := ⟨.first, _, rfl⟩
  have left : (capture {} gallery visited ⟨1⟩ 0).registry.exhausted = false := by decide +kernel
  exact ⟨reachable, gallery_reachesOnce, left,
    named_capture {} gallery visited ⟨1⟩ 0 reachable gallery_reachesOnce left⟩

end SessionReplay.Capture
