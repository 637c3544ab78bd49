import SessionReplay.Proofs.Capture.Naming
import SessionReplay.Proofs.View.Ancestry
import SessionReplay.Proofs.View.Refinement

/-!
When the views of an arena form trees. They do from the beginning until a view is put inside a view
that it holds, which the arena does not refuse unless the two are the same. As long as they do, a
capture sees every view once and gives every node an id of its own.
-/

namespace SessionReplay.View

open Function (update)

/-- The operation puts a view inside one that it holds. -/
def Operation.Loops (arena : Arena) : Operation → Prop
  | .addChild parent child => arena.introspector.Reaches child parent
  | .insertChild parent _ child => arena.introspector.Reaches child parent
  | _ => False

namespace Store

theorem parent_insert (store : Store) (parent : ViewHandle) (index : Nat) (child : ViewHandle) :
    (store.insert parent index child).parent = update store.parent child (some parent) :=
  Function.update_idem _ _ _

theorem parent_attached (store : Store) (view : ViewHandle) (place : Option ViewHandle)
    (kind : Kind) (frame : Rect) :
    (store.attached view place kind frame).parent = update store.parent view place := by
  cases place with
  | none => rfl
  | some parent => exact (parent_insert _ _ _ _).trans (Function.update_idem _ _ _)

theorem rooted_destroy {store : Store} {other : ViewHandle} (view : ViewHandle)
    (rooted : Rooted store.parent other) : Rooted (store.destroy view).parent other := by
  refine (rooted.update_none view).mono ?_
  intro below above attached
  unfold destroy at attached
  dsimp only at attached
  split at attached
  case isTrue => contradiction
  case isFalse => exact attached

end Store

namespace Arena

/-- From every live view the way up comes to a view without a parent. -/
def Forest (arena : Arena) : Prop := ∀ view, arena.isAlive view = true → Rooted arena.parent? view

variable {arena after : Arena} {issued : List ViewHandle} {view child : ViewHandle}

theorem Forest.rooted (forest : arena.Forest) (view : ViewHandle) : Rooted arena.parent? view := by
  by_cases alive : arena.isAlive view = true
  · exact forest view alive
  · exact .top (parent?_stale (eq_false_of_ne_true alive))

section Sound

variable (sound : Sound arena issued)
include sound

theorem Sound.mem_children_iff (view above : ViewHandle) :
    view ∈ arena.children above ↔ arena.parent? view = some above := by
  constructor
  · intro listed
    obtain ⟨alive, below⟩ := sound.mem_children listed
    rw [sound.parent?_eq_some (alive_of_child listed) alive]
    exact ((sound.tidy.linked _ _).mp below).1
  · intro attached
    have alive := alive_of_parent attached
    rw [parent?_alive alive] at attached
    obtain ⟨index, here, rfl⟩ := Option.map_eq_some_iff.mp attached
    have below := (sound.tidy.linked view.slot index).mpr ⟨here, List.not_mem_nil⟩
    have live := sound.tidy.parent_live here
    rw [children_alive (sound.alive_handle live), sound.slot_handle (inside_of_live live)]
    exact List.mem_map.mpr ⟨view.slot, below, handle_slot alive⟩

theorem Sound.children_nodup (view : ViewHandle) : (arena.children view).Nodup := by
  by_cases alive : arena.isAlive view = true
  · rw [children_alive alive]
    refine (sound.tidy.once view.slot).map_on ?_
    intro index listed other otherListed same
    have slots := congrArg ViewHandle.slot same
    rw [sound.slot_handle (inside_of_live (sound.tidy.child_live listed)),
      sound.slot_handle (inside_of_live (sound.tidy.child_live otherListed))] at slots
    exact slots
  · rw [children_stale (eq_false_of_ne_true alive)]
    exact List.nodup_nil

/-- A new view can be put anywhere. -/
theorem forest_attached {place : Option ViewHandle} {kind : Kind} {frame : Rect}
    {fill : State → State} {reply : Option ViewHandle}
    (done : Arena.made (arena.attached place kind frame fill) = (after, .ok reply))
    (forest : arena.Forest) : ∃ view, reply = some view ∧
      ∀ other, Rooted (Function.update arena.parent? view place) other := by
  obtain ⟨rfl, settled, found, -⟩ := made_attached done
  refine ⟨_, rfl, ?_⟩
  intro other
  cases place with
  | none => exact (forest.rooted other).update_none _
  | some parent =>
      refine rooted_update forest.rooted ?_ other
      intro climbs
      -- Nothing is inside a view that was made just now.
      rcases climbs.cases_tail with own | ⟨below, -, attached⟩
      · rw [settle, addChild_eq] at found
        exact (change_insertChild found).2.2.1 (congrArg ViewHandle.slot own.symm)
      · have alive := alive_of_child ((sound.mem_children_iff _ _).mpr attached)
        rw [sound.new_stale] at alive
        contradiction

/-- An insertion keeps the trees unless the new parent is inside the view. -/
theorem forest_inserted {parent : ViewHandle} (forest : arena.Forest)
    (parents : after.parent? = Function.update arena.parent? child (some parent)) :
    after.Forest ↔ ¬ arena.introspector.Reaches child parent := by
  rw [Introspector.reaches_iff_climbs sound.mem_children_iff]
  constructor
  · intro forestAfter climbs
    have rooted := forestAfter.rooted child
    rw [parents] at rooted
    exact rooted.not_ownAncestor (ownAncestor_update climbs)
  · intro apart view _
    rw [parents]
    exact rooted_update forest.rooted apart view

/-- What is done keeps the trees unless it puts a view inside one that it holds. -/
theorem forest_perform {operation : Operation} {reply : Option ViewHandle}
    (few : issued.length + reply.toList.length < 2 ^ 32)
    (done : arena.perform operation = (after, .ok reply)) (forest : arena.Forest) :
    after.Forest ↔ ¬ operation.Loops arena := by
  obtain ⟨⟨-, same⟩, makes⟩ := (Mirrors.mk sound rfl).perform few done
  have parents : after.parent? = (arena.store.perform ⟨operation, reply⟩).parent :=
    congrArg Store.parent same
  -- Most operations only take parents away; an insertion gives one view another parent.
  have harmless : (∀ view, Rooted (arena.store.perform ⟨operation, reply⟩).parent view) →
      (after.Forest ↔ ¬ False) := by
    intro rooted
    refine iff_of_true ?_ not_false
    intro view _
    rw [parents]
    exact rooted view
  have inserted : ∀ parent index child,
      arena.store.perform ⟨operation, reply⟩ = arena.store.insert parent index child →
      (after.Forest ↔ ¬ arena.introspector.Reaches child parent) := by
    intro parent index child result
    rw [result, Store.parent_insert] at parents
    exact forest_inserted sound forest parents
  have attached : ∀ {place : Option ViewHandle} {kind : Kind} {frame : Rect} {fill : State → State},
      Arena.made (arena.attached place kind frame fill) = (after, .ok reply) →
      (∀ view, reply = some view → (arena.store.perform ⟨operation, reply⟩).parent =
        (arena.store.attached view place kind frame).parent) →
      (after.Forest ↔ ¬ False) := by
    intro place kind frame fill done result
    obtain ⟨view, known, rooted⟩ := forest_attached sound done forest
    apply harmless
    rw [result view known, Store.parent_attached]
    exact rooted
  cases operation with
  | create kind frame =>
      obtain ⟨view, rfl⟩ := Option.isSome_iff_exists.mp makes
      exact harmless fun other => (forest.rooted other).update_none view
  | container place frame => exact attached done (by rintro view rfl; rfl)
  | label place frame text => exact attached done (by rintro view rfl; rfl)
  | textField place frame text => exact attached done (by rintro view rfl; rfl)
  | imageView place frame source => exact attached done (by rintro view rfl; rfl)
  | destroy view =>
      obtain rfl := (changed_eq_ok done).2
      exact harmless fun other => Store.rooted_destroy view (forest.rooted other)
  | addChild parent child =>
      obtain rfl := (changed_eq_ok done).2
      exact inserted parent _ child rfl
  | insertChild parent index child =>
      obtain rfl := (changed_eq_ok done).2
      exact inserted parent index child rfl
  | detach view =>
      obtain rfl := (changed_eq_ok done).2
      exact harmless fun other => (forest.rooted other).update_none view
  | set view setting =>
      obtain rfl := (changed_eq_ok done).2
      exact harmless forest.rooted

end Sound

/-- In an arena of trees a capture comes to every view once. -/
theorem reachesOnce_of_forest (sound : Sound arena issued) (forest : arena.Forest)
    (root : ViewHandle) : arena.introspector.ReachesOnce root :=
  Introspector.reachesOnce_of_rooted sound.mem_children_iff sound.children_nodup forest.rooted root

end Arena

/-- The arena in which a run ends. -/
def arenaAfter (log : List Entry) : Arena := ({} : Arena).after (log.map Entry.operation)

theorem Run.arena_eq {log : List Entry} {arena : Arena} (run : Run log arena) :
    arena = arenaAfter log := by
  induction run with
  | start => rfl
  | next run done induction =>
      subst induction
      rw [arenaAfter, List.map_append, List.map_singleton, Arena.after_concat]
      exact (congrArg Prod.fst done).symm

/-- The views of an arena form trees all along a run exactly if nothing puts a view inside one that
it holds. While they do, no view is inside itself, and a capture from any view sees every view once
and gives no id twice as long as the registry has ids left. -/
theorem Run.forest_iff {log : List Entry} {arena : Arena} (run : Run log arena)
    (few : (handles log).length < 2 ^ 32 - 1) :
    ((∀ before, before <+: log → (arenaAfter before).Forest) ↔
      ∀ before entry, before ++ [entry] <+: log → ¬ entry.operation.Loops (arenaAfter before)) ∧
    (arena.Forest →
      (∀ view, ¬ OwnAncestor arena.parent? view) ∧
      ∀ root, arena.introspector.ReachesOnce root ∧
        ∀ (settings : Capture.Settings) (registry : Identity.Registry) (tick : UInt64),
          ((Capture.census settings arena.introspector registry root).preorder.map
            (·.sighting.key)).Nodup ∧
          (Identity.Reachable registry →
            (Capture.capture settings arena.introspector registry root tick).registry.exhausted =
              false →
            (Document.ids
              (Capture.capture settings arena.introspector registry root tick).tree).Nodup)) := by
  constructor
  · induction run with
    | start =>
        refine iff_of_true ?_ ?_
        · intro before first
          obtain rfl := List.prefix_nil.mp first
          intro view _
          exact .top rfl
        · intro before entry first
          have none := List.prefix_nil.mp first
          simp at none
    | @next log arena after operation made run done induction =>
        rw [handles_concat, List.length_append] at few
        dsimp only at few
        have earlier := induction (by omega)
        have sound := (run.mirrors (by omega)).1.sound
        have step : arena.Forest → (after.Forest ↔ ¬ operation.Loops arena) :=
          Arena.forest_perform sound (by omega) done
        rw [run.arena_eq, (run.next done).arena_eq] at step
        have shorter := List.prefix_append log [⟨operation, made⟩]
        constructor
        · intro forests before entry first
          rcases List.prefix_concat_iff.mp first with whole | first
          · obtain ⟨rfl, same⟩ := List.append_inj' whole rfl
            obtain rfl := List.singleton_inj.mp same
            exact (step (forests before shorter)).mp (forests _ (List.prefix_refl _))
          · exact earlier.mp (fun other inside => forests other (inside.trans shorter)) before entry
              first
        · intro straight before first
          have forests := earlier.mpr fun other entry inside =>
            straight other entry (inside.trans shorter)
          rcases List.prefix_concat_iff.mp first with rfl | first
          · exact (step (forests log (List.prefix_refl log))).mpr
              (straight log ⟨operation, made⟩ (List.prefix_refl _))
          · exact forests before first
  · intro forest
    have sound := (run.mirrors (by omega)).1.sound
    refine ⟨fun view => (forest.rooted view).not_ownAncestor, ?_⟩
    intro root
    have once := Arena.reachesOnce_of_forest sound forest root
    refine ⟨once, ?_⟩
    intro settings registry tick
    exact ⟨Capture.keys_census_nodup once, fun reachable left =>
      Capture.ids_capture_nodup reachable.counted once left⟩

/-- A container is put inside the one that it holds. -/
def knot : List Entry :=
  [⟨.container none ⟨0, 0, 100, 20⟩, some ⟨0⟩⟩,
    ⟨.container (some ⟨0⟩) ⟨0, 0, 100, 20⟩, some ⟨1⟩⟩,
    ⟨.addChild ⟨1⟩ ⟨0⟩, none⟩]

theorem forest_iff_knot : Run knot (arenaAfter knot) ∧ (handles knot).length < 2 ^ 32 - 1 ∧
    (arenaAfter (knot.take 2)).Forest ∧ ¬ (arenaAfter knot).Forest := by
  have placed : Run (knot.take 2) (arenaAfter (knot.take 2)) := (Run.start.next rfl).next rfl
  have tied : Run knot (arenaAfter knot) := placed.next rfl
  have few : (handles knot).length < 2 ^ 32 - 1 := by decide
  refine ⟨tied, few, ?_, ?_⟩
  · refine (placed.forest_iff few).1.mpr ?_ _ (List.prefix_refl _)
    intro before entry first
    have member : entry ∈ knot.take 2 := first.subset (by simp)
    simp only [knot, List.take_succ_cons, List.take_zero, List.mem_cons, List.not_mem_nil,
      or_false] at member
    rcases member with rfl | rfl <;> exact not_false
  · intro forest
    exact ((tied.forest_iff few).2 forest).1 ⟨0⟩ ⟨⟨1⟩, rfl, .single rfl⟩

end SessionReplay.View
