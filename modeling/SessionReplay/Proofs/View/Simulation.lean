import SessionReplay.Proofs.View.Handles
import SessionReplay.Proofs.View.Releasing
import SessionReplay.Proofs.View.Store
import Mathlib.Data.List.InsertIdx

/-!
The arena is the store of views that its handles are about. Every operation does to the views that
the handles name what the store says of it, and what the arena answers is what the store would
answer.
-/

namespace SessionReplay.View

open Function (update)

def State.profile (view : State) : Profile
  | .kind => view.kind
  | .frame => view.frame
  | .transform => view.transform
  | .clip => view.clip
  | .paint => view.paint
  | .text => view.text
  | .image => view.image
  | .masking => view.masking
  | .attributes => view.attributes
  | .faults => view.faults

theorem profile_fresh (kind : Kind) (frame : Rect) :
    ({ kind, frame } : State).profile = .fresh kind frame := by
  funext property
  cases property <;> rfl

/-- A setter changes the one property it is about. -/
theorem profile_apply (setting : Setting) (view : State) :
    (setting.apply view).profile =
      update view.profile setting.property (setting.value view.profile) := by
  funext property
  cases setting
  case extra name value =>
    have given : view.setAttribute name value =
        { view with attributes := (Setting.extra name value).value view.profile } :=
      (apply_ite (fun attributes => ({ view with attributes } : State)) _ _ _).symm
    change (view.setAttribute name value).profile property = _
    rw [given]
    cases property <;> rfl
  all_goals cases property <;> rfl

/-- A list of names without the one that names `item`. -/
theorem filter_named {α β : Type} [DecidableEq α] [DecidableEq β] {name : α → β} {items : List α}
    {item : α} {other : β} (names : ∀ member ∈ items, name member = other ↔ member = item) :
    (items.filter (· ≠ item)).map name = (items.map name).filter (· ≠ other) := by
  rw [List.filter_map]
  refine congrArg (List.map name) (List.filter_congr ?_)
  intro member listed
  exact decide_eq_decide.mpr (not_congr (names member listed).symm)

namespace Arena

/-- What those see of an arena who hold its handles. -/
def store (arena : Arena) : Store where
  profile view := (arena.slot? view).map (·.view.profile)
  children := arena.children
  parent := arena.parent?

theorem profile_store (arena : Arena) (view : ViewHandle) :
    arena.store.profile view = (arena.slot? view).map (·.view.profile) :=
  rfl

theorem ask_store (arena : Arena) (view : ViewHandle) (query : String) (fails : Faults → Bool)
    (property : Property) :
    arena.ask view query fails (fun state => state.profile property) =
      arena.store.ask view query fails property := by
  rw [Store.ask, profile_store, ask]
  cases arena.slot? view <;> rfl

/-- What the arena answers, the store answers. -/
theorem introspector_store (arena : Arena) : arena.introspector = arena.store.introspector := by
  unfold introspector Store.introspector
  congr 1 <;> funext view
  case e_kind => exact ask_store arena view _ _ .kind
  case e_frame => exact ask_store arena view _ _ .frame
  case e_clip => exact ask_store arena view _ _ .clip
  case e_paint => exact ask_store arena view _ _ .paint
  case e_text => exact ask_store arena view _ _ .text
  case e_image => exact ask_store arena view _ _ .image
  all_goals
    rw [profile_store]
    cases arena.slot? view <;> rfl

section Seeing

variable {arena : Arena} {view other : ViewHandle}

theorem isAlive_iff : arena.isAlive view = true ↔
    arena.liveAt view.slot = true ∧ arena.generationAt view.slot = some view.generation := by
  rw [isAlive, slot?, liveAt, generationAt]
  cases arena.slots[view.slot]? with
  | none => simp
  | some slot => simp

theorem slot?_alive (alive : arena.isAlive view = true) :
    arena.slot? view = arena.slots[view.slot]? := by
  obtain ⟨slot, found⟩ := Option.isSome_iff_exists.mp alive
  rw [found, (slot?_eq_some.mp found).1]

theorem slot?_stale (stale : arena.isAlive view = false) : arena.slot? view = none :=
  Option.isSome_eq_false_iff.mp stale |> Option.isNone_iff_eq_none.mp

theorem handle_slot (alive : arena.isAlive view = true) : arena.handle view.slot = view := by
  have known := (isAlive_iff.mp alive).2
  have parts := ViewHandle.ofParts_parts view
  rw [generationAt] at known
  rw [handle, known]
  exact parts

theorem eq_of_slot (alive : arena.isAlive view = true) (otherAlive : arena.isAlive other = true)
    (same : view.slot = other.slot) : view = other := by
  rw [← handle_slot alive, same, handle_slot otherAlive]

/-- What is changed of one view is changed of the live view in its slot. -/
theorem update_alive {α : Type} (table : ViewHandle → α) (value : α)
    (otherAlive : arena.isAlive other = true) (alive : arena.isAlive view = true) :
    Function.update table view value other =
      if other.slot = view.slot then value else table other := by
  rw [Function.update_apply]
  by_cases here : other = view
  · rw [if_pos here, if_pos (congrArg ViewHandle.slot here)]
  · rw [if_neg here, if_neg fun same => here (eq_of_slot otherAlive alive same)]

theorem profile_alive (alive : arena.isAlive view = true) :
    arena.store.profile view = (arena.viewAt view.slot).map State.profile := by
  rw [profile_store, slot?_alive alive, viewAt, Option.map_map]
  rfl

theorem children_alive (alive : arena.isAlive view = true) :
    arena.children view = (arena.childrenAt view.slot).map arena.handle := by
  rw [children, slot?_alive alive, childrenAt]
  cases arena.slots[view.slot]? <;> rfl

theorem parent?_alive (alive : arena.isAlive view = true) :
    arena.parent? view = (arena.parentAt view.slot).map arena.handle := by
  rw [parent?, slot?_alive alive, parentAt]

theorem profile_stale (stale : arena.isAlive view = false) : arena.store.profile view = none := by
  rw [profile_store, slot?_stale stale]
  rfl

theorem children_stale (stale : arena.isAlive view = false) : arena.children view = [] := by
  rw [children, slot?_stale stale]

theorem parent?_stale (stale : arena.isAlive view = false) : arena.parent? view = none := by
  rw [parent?, slot?_stale stale]
  rfl

theorem ne_of_stale (alive : arena.isAlive view = true) (stale : arena.isAlive other = false) :
    other ≠ view := by
  rintro rfl
  rw [alive] at stale
  contradiction

theorem alive_of_child (listed : other ∈ arena.children view) : arena.isAlive view = true := by
  by_contra stale
  rw [children_stale (eq_false_of_ne_true stale)] at listed
  contradiction

theorem alive_of_parent (attached : arena.parent? view = some other) :
    arena.isAlive view = true := by
  by_contra stale
  rw [parent?_stale (eq_false_of_ne_true stale)] at attached
  contradiction

theorem detached_of_stale (stale : arena.isAlive view = false) :
    arena.introspector.Detached view := by
  have unseen := slot?_stale stale
  have asked : ∀ {α : Type} (query : String) (fails : Faults → Bool) (answer : State → α),
      arena.ask view query fails answer = .error .detached := by
    intro α query fails answer
    rw [ask, unseen]
  refine ⟨asked _ _ _, asked _ _ _, ?_, asked _ _ _, asked _ _ _, asked _ _ _, asked _ _ _,
    children_stale stale, ?_, ?_⟩
  all_goals
    unfold introspector
    dsimp only
    rw [unseen]
    rfl

theorem isAlive_congr {after : Arena} (live : ∀ index, after.liveAt index = arena.liveAt index)
    (generations : ∀ index, after.generationAt index = arena.generationAt index)
    (view : ViewHandle) : after.isAlive view = arena.isAlive view := by
  rw [Bool.eq_iff_iff, isAlive_iff, isAlive_iff, live, generations]

/-- An arena is a store if live views look the same in both and the store has no others. -/
theorem store_eq {store : Store}
    (there : ∀ view, arena.isAlive view = true →
      (arena.viewAt view.slot).map State.profile = store.profile view ∧
      (arena.childrenAt view.slot).map arena.handle = store.children view ∧
      (arena.parentAt view.slot).map arena.handle = store.parent view)
    (gone : ∀ view, arena.isAlive view = false →
      store.profile view = none ∧ store.children view = [] ∧ store.parent view = none) :
    arena.store = store := by
  have same : ∀ view, arena.store.profile view = store.profile view ∧
      arena.children view = store.children view ∧ arena.parent? view = store.parent view := by
    intro view
    by_cases alive : arena.isAlive view = true
    · rw [profile_alive alive, children_alive alive, parent?_alive alive]
      exact there view alive
    · have stale := eq_false_of_ne_true alive
      obtain ⟨profile, children, parent⟩ := gone view stale
      rw [profile_stale stale, children_stale stale, parent?_stale stale, profile, children, parent]
      exact ⟨rfl, rfl, rfl⟩
  exact Store.ext (funext fun view => (same view).1) (funext fun view => (same view).2.1)
    (funext fun view => (same view).2.2)

end Seeing

/-- An arena in which fewer views were made than a handle can tell apart. -/
structure Sound (arena : Arena) (made : List ViewHandle) : Prop where
  tidy : Tidy arena []
  numbered : Numbered arena made
  few : made.length < 2 ^ 32

section Sound

variable {arena : Arena} {made : List ViewHandle} {view parent child : ViewHandle}
  (sound : Sound arena made)
include sound

theorem Sound.slot_handle {index : Nat} (inside : index < arena.slots.length) :
    (arena.handle index).slot = index := by
  have bound := length_le_made sound.numbered
  have few := sound.few
  exact ViewHandle.slot_ofParts (by omega) _

theorem Sound.alive_handle {index : Nat} (live : arena.liveAt index = true) :
    arena.isAlive (arena.handle index) = true := by
  have inside := inside_of_live live
  have slot := sound.slot_handle inside
  have known : arena.generationAt index = some arena.slots[index].generation := by
    rw [generationAt, List.getElem?_eq_getElem inside]
    rfl
  have bounds := sound.numbered.bounded _ _ known
  have few := sound.few
  have generation : (arena.handle index).generation = arena.slots[index].generation := by
    rw [generationAt] at known
    rw [handle, known, Option.getD_some]
    exact ViewHandle.generation_ofParts (by omega) (by omega)
  rw [isAlive_iff, slot, generation]
  exact ⟨live, known⟩

/-- The handle of a live view tells its slot. -/
theorem Sound.handle_eq_iff {index : Nat} (inside : index < arena.slots.length)
    (alive : arena.isAlive view = true) : arena.handle index = view ↔ index = view.slot := by
  constructor
  · rintro rfl
    exact (sound.slot_handle inside).symm
  · rintro rfl
    exact handle_slot alive

theorem Sound.parent?_eq_some (alive : arena.isAlive parent = true)
    (childAlive : arena.isAlive child = true) :
    arena.parent? child = some parent ↔ arena.parentAt child.slot = some parent.slot := by
  rw [parent?_alive childAlive]
  cases above : arena.parentAt child.slot with
  | none => simp
  | some index =>
      have inside := inside_of_live (sound.tidy.parent_live above)
      rw [Option.map_some, Option.some.injEq, Option.some.injEq, sound.handle_eq_iff inside alive]

theorem Sound.filter_handles (alive : arena.isAlive view = true) (index : Nat) :
    ((arena.childrenAt index).filter (· ≠ view.slot)).map arena.handle =
      ((arena.childrenAt index).map arena.handle).filter (· ≠ view) := by
  apply filter_named
  intro child listed
  exact sound.handle_eq_iff (inside_of_live (sound.tidy.child_live listed)) alive

theorem Sound.detach (index : Nat) : Sound (arena.detachSlot index) made where
  tidy := tidy_detachSlot sound.tidy index
  numbered := sound.numbered.kept (generationAt_detachSlot arena index)
  few := sound.few

theorem store_detach (alive : arena.isAlive view = true) :
    (arena.detachSlot view.slot).store = arena.store.detach view := by
  have handles := handle_of_generations (generationAt_detachSlot arena view.slot)
  have lives := isAlive_congr (liveAt_detachSlot arena view.slot)
    (generationAt_detachSlot arena view.slot)
  refine store_eq ?_ ?_
  · intro other otherAlive
    rw [lives] at otherAlive
    refine ⟨?_, ?_, ?_⟩
    · rw [viewAt_detachSlot]
      exact (profile_alive otherAlive).symm
    · change _ = if arena.parent? view = some other then (arena.children other).filter (· ≠ view)
        else arena.children other
      rw [handles, childrenAt_detachSlot, children_alive otherAlive]
      simp only [sound.parent?_eq_some otherAlive alive]
      split
      case isTrue => exact sound.filter_handles alive other.slot
      case isFalse => rfl
    · change _ = Function.update arena.parent? view none other
      rw [handles, parentAt_detachSlot, update_alive _ _ otherAlive alive, parent?_alive otherAlive]
      split <;> rfl
  · intro other stale
    rw [lives] at stale
    refine ⟨profile_stale stale, ?_, ?_⟩
    · change (if arena.parent? view = some other then (arena.children other).filter (· ≠ view)
        else arena.children other) = []
      rw [children_stale stale]
      exact ite_self []
    · change Function.update arena.parent? view none other = none
      rw [Function.update_apply, parent?_stale stale]
      exact ite_self none

theorem Sound.place (apart : parent.slot ≠ child.slot) (parentAlive : arena.isAlive parent = true)
    (childAlive : arena.isAlive child = true) (index : Nat) :
    Sound (arena.place parent.slot index child.slot) made where
  tidy :=
    tidy_place sound.tidy apart (liveAt_of_alive parentAlive) (liveAt_of_alive childAlive) index
  numbered := sound.numbered.kept (generationAt_place apart arena index)
  few := sound.few

theorem store_place (apart : parent.slot ≠ child.slot) (parentAlive : arena.isAlive parent = true)
    (childAlive : arena.isAlive child = true) (index : Nat) :
    (arena.place parent.slot index child.slot).store = arena.store.insert parent index child := by
  have left := store_detach sound childAlive
  have leftLives := isAlive_congr (liveAt_detachSlot arena child.slot)
    (generationAt_detachSlot arena child.slot)
  have leftHandles := handle_of_generations (generationAt_detachSlot arena child.slot)
  have handles := handle_of_generations (generationAt_place apart arena index)
  have lives :=
    isAlive_congr (liveAt_place apart arena index) (generationAt_place apart arena index)
  have parentInside := inside_of_live (liveAt_of_alive parentAlive)
  have childInside := inside_of_live (liveAt_of_alive childAlive)
  have children : ∀ view, arena.isAlive view = true → (arena.store.detach child).children view =
      ((arena.detachSlot child.slot).childrenAt view.slot).map arena.handle := by
    intro view alive
    rw [← left, ← leftHandles]
    exact children_alive ((leftLives view).trans alive)
  refine store_eq ?_ ?_
  · intro view alive
    rw [lives] at alive
    refine ⟨?_, ?_, ?_⟩
    · rw [viewAt_place apart]
      exact (profile_alive alive).symm
    · rw [handles, childrenAt_place apart arena index view.slot parentInside, Store.insert]
      change _ = Function.update (arena.store.detach child).children parent _ view
      rw [update_alive _ _ alive parentAlive]
      split
      case isTrue here =>
        obtain rfl := eq_of_slot alive parentAlive here
        rw [children view alive, List.map_insertIdx, List.length_map, handle_slot childAlive]
      case isFalse => rw [children view alive]
    · rw [handles, parentAt_place apart arena index view.slot childInside, Store.insert]
      change _ = Function.update (arena.store.detach child).parent child (some parent) view
      rw [update_alive _ _ alive childAlive]
      split
      case isTrue => rw [Option.map_some, handle_slot parentAlive]
      case isFalse elsewhere =>
        change _ = Function.update arena.parent? child none view
        rw [update_alive _ _ alive childAlive, if_neg elsewhere, parent?_alive alive]
  · intro view stale
    rw [lives] at stale
    have notParent := ne_of_stale parentAlive stale
    have notChild := ne_of_stale childAlive stale
    refine ⟨profile_stale stale, ?_, ?_⟩
    · change Function.update (arena.store.detach child).children parent _ view = []
      rw [Function.update_of_ne notParent, ← left]
      exact children_stale ((leftLives view).trans stale)
    · change Function.update (arena.store.detach child).parent child (some parent) view = none
      rw [Function.update_of_ne notChild, ← left]
      exact parent?_stale ((leftLives view).trans stale)

theorem Sound.redraw (index : Nat) (change : State → State) :
    Sound (arena.redraw index change) made where
  tidy := tidy_redraw sound.tidy index change
  numbered := sound.numbered.kept (generationAt_redraw arena index change)
  few := sound.few

omit sound in
theorem store_redraw (alive : arena.isAlive view = true) (setting : Setting) :
    (arena.redraw view.slot setting.apply).store = arena.store.set view setting := by
  have handles := handle_of_generations (generationAt_redraw arena view.slot setting.apply)
  have lives := isAlive_congr (liveAt_redraw arena view.slot setting.apply)
    (generationAt_redraw arena view.slot setting.apply)
  refine store_eq ?_ ?_
  · intro other otherAlive
    rw [lives] at otherAlive
    refine ⟨?_, ?_, ?_⟩
    · change _ = Function.update arena.store.profile view _ other
      rw [viewAt_redraw, update_alive _ _ otherAlive alive, profile_alive otherAlive,
        profile_alive alive]
      split
      case isTrue here =>
        rw [here, Option.map_map, Option.map_map]
        exact congrArg (Option.map · _) (funext (profile_apply setting))
      case isFalse => rfl
    · rw [handles, childrenAt_redraw]
      exact (children_alive otherAlive).symm
    · rw [handles, parentAt_redraw]
      exact (parent?_alive otherAlive).symm
  · intro other stale
    rw [lives] at stale
    have different := ne_of_stale alive stale
    refine ⟨?_, children_stale stale, parent?_stale stale⟩
    change Function.update arena.store.profile view _ other = none
    rw [Function.update_of_ne different, profile_stale stale]

theorem Sound.mem_children (listed : child ∈ arena.children view) :
    arena.isAlive child = true ∧ child.slot ∈ arena.childrenAt view.slot := by
  rw [children_alive (alive_of_child listed)] at listed
  obtain ⟨index, below, rfl⟩ := List.mem_map.mp listed
  have live := sound.tidy.child_live below
  rw [sound.slot_handle (inside_of_live live)]
  exact ⟨sound.alive_handle live, below⟩

theorem leads_of_reaches {other : ViewHandle} (alive : arena.isAlive view = true)
    (reaches : arena.store.Reaches view other) :
    arena.isAlive other = true ∧ arena.Leads view.slot other.slot := by
  induction reaches with
  | refl => exact ⟨alive, .refl⟩
  | tail _ listed induction =>
      obtain ⟨childAlive, below⟩ := sound.mem_children listed
      exact ⟨childAlive, induction.2.tail below⟩

theorem reaches_of_leads {index : Nat} (alive : arena.isAlive view = true)
    (leads : arena.Leads view.slot index) : arena.store.Reaches view (arena.handle index) := by
  induction leads with
  | refl =>
      rw [handle_slot alive]
      exact .refl
  | @tail between index _ listed induction =>
      refine induction.tail ?_
      have live := sound.tidy.live_of_child listed
      change arena.handle index ∈ arena.children (arena.handle between)
      rw [children_alive (sound.alive_handle live), sound.slot_handle (inside_of_live live)]
      exact List.mem_map_of_mem listed

theorem reaches_iff_leads {other : ViewHandle} (alive : arena.isAlive view = true)
    (otherAlive : arena.isAlive other = true) :
    arena.store.Reaches view other ↔ arena.Leads view.slot other.slot := by
  constructor
  · exact fun reaches => (leads_of_reaches sound alive reaches).2
  · intro leads
    have reaches := reaches_of_leads sound alive leads
    rw [handle_slot otherAlive] at reaches
    exact reaches

theorem Sound.destroy (alive : arena.isAlive view = true) :
    Sound ((arena.detachSlot view.slot).releaseAll [view.slot]) made where
  tidy := tidy_releaseAll (tidy_detached sound.tidy view.slot (liveAt_of_alive alive))
  numbered := (sound.detach view.slot).numbered.kept (generationAt_releaseAll _ _)
  few := sound.few

theorem isAlive_releaseAll {other : ViewHandle} (alive : arena.isAlive view = true) :
    (arena.releaseAll [view.slot]).isAlive other = true ↔
      arena.isAlive other = true ∧ ¬ arena.store.Reaches view other := by
  by_cases leads : arena.Leads view.slot other.slot
  · have dead : (arena.releaseAll [view.slot]).liveAt other.slot = false := by
      rw [liveAt, slots_released leads]
      cases arena.slots[other.slot]? <;> rfl
    rw [isAlive_iff, dead]
    constructor
    · rintro ⟨⟨⟩, -⟩
    · rintro ⟨otherAlive, apart⟩
      exact absurd ((reaches_iff_leads sound alive otherAlive).mpr leads) apart
  · have kept := slots_kept leads
    rw [isAlive_iff, liveAt, generationAt, kept]
    change arena.liveAt other.slot = true ∧ arena.generationAt other.slot = _ ↔ _
    rw [← isAlive_iff]
    refine ⟨fun otherAlive => ⟨otherAlive, ?_⟩, And.left⟩
    rw [reaches_iff_leads sound alive otherAlive]
    exact leads

theorem store_destroy (alive : arena.isAlive view = true) :
    ((arena.detachSlot view.slot).releaseAll [view.slot]).store = arena.store.destroy view := by
  have left := store_detach sound alive
  have restSound := sound.detach view.slot
  have restAlive : (arena.detachSlot view.slot).isAlive view = true := by
    rw [isAlive_congr (liveAt_detachSlot arena view.slot) (generationAt_detachSlot arena view.slot)]
    exact alive
  rw [Store.destroy, ← left]
  -- From here on only the arena without the view's link to its parent matters.
  clear left sound alive
  generalize arena.detachSlot view.slot = rest at restSound restAlive
  have handles := handle_of_generations (generationAt_releaseAll rest [view.slot])
  refine store_eq ?_ ?_
  · intro other otherAlive
    obtain ⟨wasAlive, apart⟩ := (isAlive_releaseAll restSound restAlive).mp otherAlive
    have kept := slots_kept (mt (reaches_iff_leads restSound restAlive wasAlive).mpr apart)
    dsimp only
    rw [if_neg apart, if_neg apart, if_neg apart, handles, viewAt, childrenAt, parentAt, kept]
    exact ⟨(profile_alive wasAlive).symm, (children_alive wasAlive).symm,
      (parent?_alive wasAlive).symm⟩
  · intro other stale
    dsimp only
    by_cases reached : rest.store.Reaches view other
    · rw [if_pos reached, if_pos reached, if_pos reached]
      exact ⟨rfl, rfl, rfl⟩
    · have wasStale : rest.isAlive other = false := by
        by_contra wasAlive
        rw [(isAlive_releaseAll restSound restAlive).mpr
          ⟨eq_true_of_ne_false wasAlive, reached⟩] at stale
        contradiction
      rw [if_neg reached, if_neg reached, if_neg reached]
      exact ⟨profile_stale wasStale, children_stale wasStale, parent?_stale wasStale⟩

theorem Sound.create (few : made.length + 1 < 2 ^ 32) (state : State) :
    Sound (arena.create state).2 (made ++ [(arena.create state).1]) where
  tidy := tidy_create sound.tidy state
  numbered := numbered_create sound.tidy sound.numbered sound.few state
  few := by
    rw [List.length_append]
    exact few

/-- No view has the new handle yet. -/
theorem Sound.new_stale (state : State) : arena.isAlive (arena.create state).1 = false := by
  by_contra alive
  exact ne_newSlot sound.tidy (liveAt_of_alive (eq_true_of_ne_false alive))
    (parts_create sound.tidy sound.numbered sound.few state).1

theorem isAlive_create (state : State) (other : ViewHandle) :
    (arena.create state).2.isAlive other = true ↔
      other = (arena.create state).1 ∨ arena.isAlive other = true := by
  obtain ⟨slot, generation⟩ := parts_create sound.tidy sound.numbered sound.few state
  rw [isAlive_iff, liveAt_create sound.tidy, generationAt_create sound.tidy]
  by_cases here : other.slot = arena.newSlot
  · have wasStale : arena.isAlive other = false := by
      by_contra alive
      exact ne_newSlot sound.tidy (liveAt_of_alive (eq_true_of_ne_false alive)) here
    rw [if_pos here, if_pos here, wasStale, Option.some.injEq]
    simp only [Bool.false_eq_true, or_false, true_and]
    constructor
    · intro same
      rw [← ViewHandle.ofParts_parts other, here, ← same]
      exact (create_handle sound.tidy state).symm
    · rintro rfl
      exact generation.symm
  · rw [if_neg here, if_neg here, ← isAlive_iff]
    refine ⟨.inr, fun known => known.resolve_left ?_⟩
    rintro rfl
    exact here slot

theorem store_create (kind : Kind) (frame : Rect) :
    (arena.create { kind, frame }).2.store =
      arena.store.create (arena.create { kind, frame }).1 kind frame := by
  have profile := profile_fresh kind frame
  generalize ({ kind, frame } : State) = state at profile
  obtain ⟨slot, -⟩ := parts_create sound.tidy sound.numbered sound.few state
  have lives := isAlive_create sound state
  -- Only the new slot's handle changes, and no live view knew of that slot.
  have kept : ∀ index, arena.liveAt index = true →
      (arena.create state).2.handle index = arena.handle index := by
    intro index live
    rw [handle, slots_create sound.tidy, if_neg (ne_newSlot sound.tidy live)]
    rfl
  refine store_eq ?_ ?_
  · intro other alive
    change _ = Function.update arena.store.profile _ (some _) other ∧
      _ = Function.update arena.children _ [] other ∧ _ = Function.update arena.parent? _ none other
    rw [childrenAt_create sound.tidy, parentAt_create sound.tidy, viewAt, slots_create sound.tidy]
    rcases Decidable.em (other = (arena.create state).1) with rfl | different
    · obtain ⟨parent, children⟩ := sound.tidy.dead _ (newSlot_dead sound.tidy)
      rw [slot, if_pos rfl, parent, children, Function.update_self, Function.update_self,
        Function.update_self, ← profile]
      exact ⟨rfl, rfl, rfl⟩
    · have wasAlive := ((lives other).mp alive).resolve_left different
      have elsewhere := ne_newSlot sound.tidy (liveAt_of_alive wasAlive)
      rw [if_neg elsewhere, Function.update_of_ne different, Function.update_of_ne different,
        Function.update_of_ne different, profile_alive wasAlive, children_alive wasAlive,
        parent?_alive wasAlive]
      refine ⟨rfl, ?_, ?_⟩
      · apply List.map_congr_left
        intro child listed
        exact kept child (sound.tidy.child_live listed)
      · cases above : arena.parentAt other.slot with
        | none => rw [Option.map_none, Option.map_none]
        | some index =>
            rw [Option.map_some, Option.map_some, kept index (sound.tidy.parent_live above)]
  · intro other stale
    have absent : other ≠ (arena.create state).1 ∧ arena.isAlive other = false := by
      rw [← Bool.not_eq_true, lives other, not_or] at stale
      exact ⟨stale.1, eq_false_of_ne_true stale.2⟩
    change Function.update arena.store.profile _ (some _) other = none ∧
      Function.update arena.children _ [] other = [] ∧
      Function.update arena.parent? _ none other = none
    rw [Function.update_of_ne absent.1, Function.update_of_ne absent.1,
      Function.update_of_ne absent.1]
    exact ⟨profile_stale absent.2, children_stale absent.2, parent?_stale absent.2⟩

end Sound

end Arena

end SessionReplay.View
