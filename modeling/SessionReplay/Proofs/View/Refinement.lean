import SessionReplay.Proofs.View.Lifetime
import SessionReplay.Proofs.View.Simulation

/-!
The arena refines the store of views. Whatever is done with its handles, the arena is the store that
is told the same, so that views live as long as the store says, and the arena's slots, used again
and again, show nowhere.
-/

namespace SessionReplay.View

namespace Arena

variable {arena after : Arena} {issued : List ViewHandle} {store : Store}
  {view parent child : ViewHandle} {reply : Option ViewHandle}

/-- The arena is the store, as far as its handles tell. -/
structure Mirrors (arena : Arena) (issued : List ViewHandle) (store : Store) : Prop where
  sound : Sound arena issued
  same : arena.store = store

theorem changed_eq_ok {result : Except Refusal Arena}
    (done : arena.changed result = (after, .ok reply)) : result = .ok after ∧ reply = none := by
  cases result with
  | error refusal =>
      have refused := (Prod.mk.inj done).2
      contradiction
  | ok changed =>
      obtain ⟨rfl, same⟩ := Prod.mk.inj done
      exact ⟨rfl, (Except.ok.inj same).symm⟩

namespace Mirrors

theorem insert {index : Nat} (mirrors : Mirrors arena issued store)
    (done : arena.insertChild parent index child = .ok after) :
    Mirrors after issued (store.insert parent index child) := by
  obtain ⟨parentAlive, childAlive, apart, rfl⟩ := change_insertChild done
  refine ⟨mirrors.sound.place apart parentAlive childAlive index, ?_⟩
  rw [store_place mirrors.sound apart parentAlive childAlive, mirrors.same]

theorem append (mirrors : Mirrors arena issued store)
    (done : arena.addChild parent child = .ok after) :
    Mirrors after issued (store.append parent child) := by
  rw [addChild_eq] at done
  have count : (store.children parent).length = (arena.childrenAt parent.slot).length := by
    have listed : store.children parent = (arena.childrenAt parent.slot).map arena.handle := by
      rw [← mirrors.same]
      exact children_alive (change_insertChild done).1
    rw [listed, List.length_map]
  rw [Store.append, count]
  exact mirrors.insert done

theorem detach (mirrors : Mirrors arena issued store) (done : arena.detach view = .ok after) :
    Mirrors after issued (store.detach view) := by
  obtain ⟨alive, rfl⟩ := change_detach done
  exact ⟨mirrors.sound.detach view.slot, by rw [store_detach mirrors.sound alive, mirrors.same]⟩

theorem destroy (mirrors : Mirrors arena issued store) (done : arena.destroy view = .ok after) :
    Mirrors after issued (store.destroy view) := by
  obtain ⟨alive, rfl⟩ := change_destroy done
  exact ⟨mirrors.sound.destroy alive, by rw [store_destroy mirrors.sound alive, mirrors.same]⟩

theorem set (mirrors : Mirrors arena issued store) (setting : Setting)
    (done : arena.update view setting.apply = .ok after) :
    Mirrors after issued (store.set view setting) := by
  obtain ⟨alive, rfl⟩ := change_update done
  exact ⟨mirrors.sound.redraw view.slot _, by rw [store_redraw alive, mirrors.same]⟩

theorem create (mirrors : Mirrors arena issued store) (few : issued.length + 1 < 2 ^ 32)
    (kind : Kind) (frame : Rect) :
    Mirrors (arena.create { kind, frame }).2 (issued ++ [(arena.create { kind, frame }).1])
      (store.create (arena.create { kind, frame }).1 kind frame) :=
  ⟨mirrors.sound.create few _, by rw [store_create mirrors.sound, mirrors.same]⟩

/-- A constructor makes its view and finds its place for it before the view is filled. -/
theorem attached {place : Option ViewHandle} {kind : Kind} {frame : Rect} {fill : State → State}
    (mirrors : Mirrors arena issued store) (few : issued.length + reply.toList.length < 2 ^ 32)
    (done : Arena.made (arena.attached place kind frame fill) = (after, .ok reply)) :
    ∃ view settled, reply = some view ∧
      Mirrors settled (issued ++ [view]) (store.attached view place kind frame) ∧
      settled.update view fill = .ok after := by
  obtain ⟨rfl, settled, found, drawn⟩ := made_attached done
  have created := mirrors.create few kind frame
  refine ⟨_, settled, rfl, ?_, drawn⟩
  cases place with
  | none => exact Except.ok.inj found ▸ created
  | some parent => exact created.append found

end Mirrors

theorem redraw_id (arena : Arena) (index : Nat) : arena.redraw index id = arena := by
  obtain ⟨slots, free⟩ := arena
  exact congrArg (Arena.mk · free) (List.modify_id index slots)

/-- Every operation that is done does to the arena what it does to the store. -/
theorem Mirrors.perform {operation : Operation} (mirrors : Mirrors arena issued store)
    (few : issued.length + reply.toList.length < 2 ^ 32)
    (done : arena.perform operation = (after, .ok reply)) :
    Mirrors after (issued ++ reply.toList) (store.perform ⟨operation, reply⟩) ∧
      reply.isSome = operation.makes := by
  have changed : ∀ {result : Except Refusal Arena},
      arena.changed result = (after, .ok reply) →
      (result = .ok after → Mirrors after issued (store.perform ⟨operation, none⟩)) →
      Mirrors after (issued ++ reply.toList) (store.perform ⟨operation, reply⟩) ∧
        reply.isSome = false := by
    intro result done mirrored
    obtain ⟨worked, rfl⟩ := changed_eq_ok done
    exact ⟨(List.append_nil issued).symm ▸ mirrored worked, rfl⟩
  cases operation with
  | create kind frame =>
      obtain ⟨rfl, same⟩ := Prod.mk.inj done
      obtain rfl := Except.ok.inj same
      exact ⟨mirrors.create few kind frame, rfl⟩
  | container place frame =>
      obtain ⟨view, settled, rfl, mirrored, drawn⟩ := mirrors.attached few done
      obtain ⟨-, rfl⟩ := change_update drawn
      rw [redraw_id]
      exact ⟨mirrored, rfl⟩
  | label place frame text =>
      obtain ⟨view, settled, rfl, mirrored, drawn⟩ := mirrors.attached few done
      exact ⟨mirrored.set (.text text) drawn, rfl⟩
  | textField place frame text =>
      obtain ⟨view, settled, rfl, mirrored, drawn⟩ := mirrors.attached few done
      exact ⟨mirrored.set (.text text) drawn, rfl⟩
  | imageView place frame source =>
      obtain ⟨view, settled, rfl, mirrored, drawn⟩ := mirrors.attached few done
      exact ⟨mirrored.set (.image (some { source })) drawn, rfl⟩
  | destroy view => exact changed done mirrors.destroy
  | addChild parent child => exact changed done mirrors.append
  | insertChild parent index child => exact changed done mirrors.insert
  | detach view => exact changed done mirrors.detach
  | set view setting => exact changed done (mirrors.set setting)

theorem there_store (arena : Arena) (view : ViewHandle) :
    arena.store.There view ↔ arena.isAlive view = true := by
  rw [Store.There, profile_store, Option.isSome_map]
  rfl

theorem changed_done {result : Except Refusal Arena} :
    (∃ after reply, arena.changed result = (after, .ok reply)) ↔ ∃ after, result = .ok after := by
  constructor
  · rintro ⟨after, reply, done⟩
    exact ⟨after, (changed_eq_ok done).1⟩
  · rintro ⟨after, rfl⟩
    exact ⟨after, none, rfl⟩

theorem insertChild_done {index : Nat} :
    (∃ after, arena.insertChild parent index child = .ok after) ↔
      arena.isAlive parent = true ∧ arena.isAlive child = true ∧ parent ≠ child := by
  constructor
  · rintro ⟨after, done⟩
    obtain ⟨parentAlive, childAlive, apart, -⟩ := change_insertChild done
    exact ⟨parentAlive, childAlive, fun same => apart (congrArg ViewHandle.slot same)⟩
  · rintro ⟨parentAlive, childAlive, different⟩
    rw [insertChild_eq, if_pos parentAlive, if_pos childAlive,
      if_neg fun same => different (eq_of_slot parentAlive childAlive same)]
    exact ⟨_, rfl⟩

theorem guarded_done {condition : Prop} [Decidable condition] {refusal : Refusal} :
    (∃ changed : Arena, (if condition then .ok after else .error refusal) = Except.ok changed) ↔
      condition := by
  by_cases holds : condition <;> simp [holds]

/-- A new view finds its place below any live view. -/
theorem settle_alive (sound : Sound arena issued) {place : Option ViewHandle} (state : State)
    (parents : ∀ parent, place = some parent → arena.isAlive parent = true) :
    ∃ settled, (arena.create state).2.settle (arena.create state).1 place = .ok settled ∧
      settled.isAlive (arena.create state).1 = true := by
  have lives := isAlive_create sound state
  have viewAlive := (lives _).mpr (.inl rfl)
  cases place with
  | none => exact ⟨_, rfl, viewAlive⟩
  | some parent =>
      have alive := parents parent rfl
      have different := (ne_of_stale alive (sound.new_stale state)).symm
      rw [settle, addChild_eq]
      obtain ⟨settled, done⟩ :=
        insertChild_done.mpr ⟨(lives parent).mpr (.inr alive), viewAlive, different⟩
      obtain ⟨-, -, apart, rfl⟩ := change_insertChild done
      refine ⟨_, done, ?_⟩
      rw [isAlive_congr (liveAt_place apart _ _) (generationAt_place apart _ _)]
      exact viewAlive

/-- A constructor is refused only for its parent. -/
theorem attached_done (sound : Sound arena issued) {place : Option ViewHandle} {kind : Kind}
    {frame : Rect} {fill : State → State} :
    (∃ after reply, Arena.made (arena.attached place kind frame fill) = (after, .ok reply)) ↔
      ∀ parent, place = some parent → arena.isAlive parent = true := by
  have lives := isAlive_create sound { kind, frame }
  constructor
  · rintro ⟨after, reply, done⟩ parent rfl
    obtain ⟨-, settled, found, -⟩ := made_attached done
    rw [settle, addChild_eq] at found
    obtain ⟨parentAlive, -, apart, -⟩ := change_insertChild found
    exact ((lives parent).mp parentAlive).resolve_left fun same =>
      apart (congrArg ViewHandle.slot same)
  · intro parents
    obtain ⟨settled, found, alive⟩ := settle_alive sound { kind, frame } parents
    rw [attached_eq]
    dsimp only
    rw [found, Except.bind, update_eq, if_pos alive]
    exact ⟨_, _, rfl⟩

/-- An operation is done exactly if the store allows it. -/
theorem perform_done (sound : Sound arena issued) (operation : Operation) :
    (∃ after reply, arena.perform operation = (after, .ok reply)) ↔
      operation.Allowed arena.store := by
  have alive := there_store arena
  have parents : ∀ place : Option ViewHandle,
      (∀ parent, place = some parent → arena.isAlive parent = true) ↔
        ∀ parent, place = some parent → arena.store.There parent := by
    intro place
    simp only [alive]
  cases operation with
  | create kind frame => exact iff_of_true ⟨_, _, rfl⟩ trivial
  | container place frame => exact (attached_done sound).trans (parents place)
  | label place frame text => exact (attached_done sound).trans (parents place)
  | textField place frame text => exact (attached_done sound).trans (parents place)
  | imageView place frame source => exact (attached_done sound).trans (parents place)
  | destroy view =>
      refine changed_done.trans ?_
      rw [destroy_eq]
      exact guarded_done.trans (alive view).symm
  | addChild parent child =>
      refine changed_done.trans ?_
      rw [addChild_eq, insertChild_done, ← alive, ← alive]
      rfl
  | insertChild parent index child =>
      refine changed_done.trans ?_
      rw [insertChild_done, ← alive, ← alive]
      rfl
  | detach view =>
      refine changed_done.trans ?_
      rw [detach_eq]
      exact guarded_done.trans (alive view).symm
  | set view setting =>
      refine changed_done.trans ?_
      rw [update_eq]
      exact guarded_done.trans (alive view).symm

theorem mirrors_empty : Mirrors {} [] {} :=
  ⟨⟨tidy_empty, numbered_empty, by decide⟩, rfl⟩

end Arena

theorem handles_concat (log : List Entry) (entry : Entry) :
    handles (log ++ [entry]) = handles log ++ entry.made.toList := by
  rw [handles, List.filterMap_append]
  obtain ⟨operation, made⟩ := entry
  cases made <;> rfl

/-- A run keeps arena and store the same. -/
theorem Run.mirrors {log : List Entry} {arena : Arena} (run : Run log arena)
    (few : (handles log).length < 2 ^ 32) :
    arena.Mirrors (handles log) (Store.after log) ∧
      ∀ entry ∈ log, entry.made.isSome = entry.operation.makes := by
  induction run with
  | start => exact ⟨Arena.mirrors_empty, List.forall_mem_nil _⟩
  | @next log arena after operation made run done induction =>
      rw [handles_concat, List.length_append] at few
      obtain ⟨mirrors, complete⟩ := induction (by omega)
      obtain ⟨mirrored, last⟩ := mirrors.perform few done
      rw [handles_concat, Store.after_concat]
      refine ⟨mirrored, ?_⟩
      intro entry member
      rcases List.mem_append.mp member with earlier | here
      · exact complete entry earlier
      · exact List.mem_singleton.mp here ▸ last

/-- All that can be told of the arena by its handles is what the store tells. -/
structure Refines (log : List Entry) (arena : Arena) : Prop where
  distinct : (handles log).Nodup
  same : arena.store = Store.after log
  answers : arena.introspector = (Store.after log).introspector
  allowed : ∀ operation, (∃ after made, arena.perform operation = (after, .ok made)) ↔
    operation.Allowed (Store.after log)
  lives : ∀ view, arena.isAlive view = true ↔ Lives log view
  detached : ∀ view, arena.isAlive view = false → arena.introspector.Detached view

/-- After any operations that were not refused the arena is the store that was told the same. No
handle is given twice; a view is alive from the operation that makes it until it is destroyed, or a
view that holds it; and of a view that is not alive nothing is told. -/
theorem Run.refines {log : List Entry} {arena : Arena} (run : Run log arena)
    (few : (handles log).length < 2 ^ 32 - 1) : Refines log arena := by
  obtain ⟨⟨sound, same⟩, complete⟩ := run.mirrors (by omega)
  refine ⟨sound.numbered.distinct, same, ?_, ?_, ?_, fun _ => Arena.detached_of_stale⟩
  · rw [← same]
    exact arena.introspector_store
  · rw [← same]
    exact Arena.perform_done sound
  · intro view
    rw [← there_iff_lives log complete, ← same]
    exact (arena.there_store view).symm

theorem Arena.perform_destroy_leaf {arena : Arena} {view : ViewHandle}
    (alive : arena.isAlive view = true)
    (leaf : (arena.detachSlot view.slot).childrenAt view.slot = []) :
    arena.perform (.destroy view) = ((arena.detachSlot view.slot).release view.slot, .ok none) := by
  change arena.changed (arena.destroy view) = _
  rw [destroy_eq, if_pos alive, releaseAll_leaf leaf]
  rfl

/-- A label is destroyed, and the next one gets its slot. -/
def relabelling : List Entry :=
  [⟨.create .container ⟨0, 0, 10, 10⟩, some ⟨0⟩⟩,
    ⟨.label (some ⟨0⟩) ⟨0, 0, 10, 10⟩ "bye", some ⟨1⟩⟩,
    ⟨.destroy ⟨1⟩, none⟩,
    ⟨.label (some ⟨0⟩) ⟨0, 0, 10, 10⟩ "hi", some ⟨4294967297⟩⟩]

def relabelled : Arena where
  slots :=
    [{ view := { kind := .container, frame := ⟨0, 0, 10, 10⟩ }, children := [1] },
      { view := { kind := .text, frame := ⟨0, 0, 10, 10⟩, text := some { text := "hi" } }
        parent := some 0
        generation := 1 }]
  free := []

theorem run_relabelling : Run relabelling relabelled := by
  have labelled : Run (relabelling.take 2)
      (({} : Arena).after ((relabelling.take 2).map Entry.operation)) :=
    (Run.start.next rfl).next rfl
  exact (labelled.next (Arena.perform_destroy_leaf rfl rfl)).next rfl

/-- The new label's handle is not the old one's, which is answered as if its view had never been. -/
theorem refines_relabelling :
    Run relabelling relabelled ∧ (handles relabelling).length < 2 ^ 32 - 1 ∧
      Refines relabelling relabelled ∧ relabelled.introspector.Detached ⟨1⟩ ∧
      Lives relabelling ⟨4294967297⟩ := by
  have few : (handles relabelling).length < 2 ^ 32 - 1 := by decide
  have refines : Refines relabelling relabelled := run_relabelling.refines few
  exact ⟨run_relabelling, few, refines, refines.detached ⟨1⟩ rfl,
    (refines.lives ⟨4294967297⟩).mp rfl⟩

end SessionReplay.View
