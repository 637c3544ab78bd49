import SessionReplay.Proofs.View.Run
import Mathlib.Data.List.Nodup
import Mathlib.Logic.Relation

/-!
What each change of an arena does to its slots, slot by slot: which are live, who is whose parent,
and whose children are listed where.
-/

namespace SessionReplay.View.Arena

variable {arena after : Arena}

def liveAt (arena : Arena) (index : Nat) : Bool := (arena.slots[index]?.map Slot.alive).getD false

def parentAt (arena : Arena) (index : Nat) : Option Nat := arena.slots[index]?.bind Slot.parent

/-- How often a slot was used again, if there is such a slot. -/
def generationAt (arena : Arena) (index : Nat) : Option Nat :=
  arena.slots[index]?.map Slot.generation

/-- What is kept of the view in a slot, or was kept of the last one. -/
def viewAt (arena : Arena) (index : Nat) : Option State := arena.slots[index]?.map Slot.view

theorem inside_of_live {index : Nat} (live : arena.liveAt index = true) :
    index < arena.slots.length := by
  by_contra outside
  rw [liveAt, List.getElem?_eq_none_iff.mpr (Nat.le_of_not_lt outside)] at live
  contradiction

theorem slot?_eq_some {view : ViewHandle} {slot : Slot} : arena.slot? view = some slot ↔
    arena.slots[view.slot]? = some slot ∧ slot.alive = true ∧
      slot.generation = view.generation := by
  rw [slot?, Option.filter_eq_some_iff, Bool.and_eq_true, decide_eq_true_iff]

theorem liveAt_of_alive {view : ViewHandle} (alive : arena.isAlive view = true) :
    arena.liveAt view.slot = true := by
  obtain ⟨slot, found⟩ := Option.isSome_iff_exists.mp alive
  obtain ⟨there, live, -⟩ := slot?_eq_some.mp found
  rw [liveAt, there]
  exact live

theorem slots_modify (arena : Arena) (index : Nat) (change : Slot → Slot) (other : Nat) :
    (arena.modify index change).slots[other]? =
      arena.slots[other]?.map fun slot => if other = index then change slot else slot := by
  rw [modify, List.getElem?_modify]
  by_cases here : index = other
  · simp [here]
  · simp [here, Ne.symm here]

/-- What a change leaves of a slot as it was. -/
theorem column_kept {α : Type} {column : Slot → α} {change : Slot → Slot} {index : Nat}
    (slots : after.slots[index]? = arena.slots[index]?.map change)
    (kept : ∀ slot, column (change slot) = column slot) :
    after.slots[index]?.map column = arena.slots[index]?.map column := by
  rw [slots, Option.map_map]
  exact congrArg (Option.map · _) (funext kept)

/-- A slot as it is when `index` has left its parent. -/
def withoutChild (arena : Arena) (index other : Nat) (slot : Slot) : Slot :=
  { slot with
    parent := if other = index then none else slot.parent
    children :=
      if arena.parentAt index = some other then slot.children.filter (· ≠ index)
      else slot.children }

theorem slots_detachSlot (arena : Arena) (index other : Nat) :
    (arena.detachSlot index).slots[other]? =
      arena.slots[other]?.map (arena.withoutChild index other) := by
  unfold detachSlot
  split
  case h_1 parent attached =>
    have here : arena.parentAt index = some parent := attached
    rw [slots_modify, slots_modify, Option.map_map]
    congr 1
    funext slot
    have turned : (parent = other) = (other = parent) := propext eq_comm
    simp only [withoutChild, here, Function.comp_apply, Option.some.injEq, turned]
    split_ifs <;> rfl
  case h_2 detached =>
    have here : arena.parentAt index = none := detached
    cases there : arena.slots[other]? with
    | none => rfl
    | some slot =>
        have own : (if other = index then none else slot.parent) = slot.parent := by
          split
          case isTrue same =>
            rw [same] at there
            rw [parentAt, there] at here
            exact here.symm
          case isFalse => rfl
        simp [withoutChild, here, own]

theorem parentAt_detachSlot (arena : Arena) (index other : Nat) :
    (arena.detachSlot index).parentAt other =
      if other = index then none else arena.parentAt other := by
  rw [parentAt, slots_detachSlot, parentAt]
  cases arena.slots[other]? with
  | none => exact (ite_self none).symm
  | some slot => rfl

theorem childrenAt_detachSlot (arena : Arena) (index other : Nat) :
    (arena.detachSlot index).childrenAt other =
      if arena.parentAt index = some other then (arena.childrenAt other).filter (· ≠ index)
      else arena.childrenAt other := by
  rw [childrenAt, slots_detachSlot, childrenAt]
  cases arena.slots[other]? with
  | none => exact (ite_self []).symm
  | some slot => rfl

theorem liveAt_detachSlot (arena : Arena) (index other : Nat) :
    (arena.detachSlot index).liveAt other = arena.liveAt other :=
  congrArg (Option.getD · false) (column_kept (slots_detachSlot arena index other) fun _ => rfl)

theorem generationAt_detachSlot (arena : Arena) (index other : Nat) :
    (arena.detachSlot index).generationAt other = arena.generationAt other :=
  column_kept (slots_detachSlot arena index other) fun _ => rfl

theorem viewAt_detachSlot (arena : Arena) (index other : Nat) :
    (arena.detachSlot index).viewAt other = arena.viewAt other :=
  column_kept (slots_detachSlot arena index other) fun _ => rfl

/-- A slot as it is when `child` has moved in below `parent`. -/
def withChild (arena : Arena) (parent index child other : Nat) (slot : Slot) : Slot :=
  let rest := arena.withoutChild child other slot
  { rest with
    parent := if other = child then some parent else rest.parent
    children :=
      if other = parent then rest.children.insertIdx (min index rest.children.length) child
      else rest.children }

theorem slots_place {parent child : Nat} (apart : parent ≠ child) (arena : Arena)
    (index other : Nat) : (arena.place parent index child).slots[other]? =
      arena.slots[other]?.map (arena.withChild parent index child other) := by
  rw [place, slots_modify, slots_modify, slots_detachSlot, Option.map_map, Option.map_map]
  congr 1
  funext slot
  simp only [Function.comp_apply, withChild]
  split_ifs with here above
  · exact absurd (above.symm.trans here) apart
  · rfl
  · rfl
  · rfl

theorem parentAt_place {parent child : Nat} (apart : parent ≠ child) (arena : Arena)
    (index other : Nat) (inside : child < arena.slots.length) :
    (arena.place parent index child).parentAt other =
      if other = child then some parent else arena.parentAt other := by
  rw [parentAt, slots_place apart, parentAt]
  by_cases here : other = child
  · subst here
    simp [withChild, List.getElem?_eq_getElem inside]
  · cases arena.slots[other]? with
    | none => simp [here]
    | some slot => simp [withChild, withoutChild, here]

theorem childrenAt_place {parent child : Nat} (apart : parent ≠ child) (arena : Arena)
    (index other : Nat) (inside : parent < arena.slots.length) :
    (arena.place parent index child).childrenAt other =
      if other = parent then
        ((arena.detachSlot child).childrenAt other).insertIdx
          (min index ((arena.detachSlot child).childrenAt other).length) child
      else (arena.detachSlot child).childrenAt other := by
  rw [childrenAt, slots_place apart, childrenAt, slots_detachSlot]
  by_cases here : other = parent
  · subst here
    simp [withChild, List.getElem?_eq_getElem inside]
  · cases arena.slots[other]? with
    | none => simp [here]
    | some slot => simp [withChild, here]

section Placing

variable {parent child : Nat} (apart : parent ≠ child) (arena : Arena) (index other : Nat)
include apart

theorem liveAt_place : (arena.place parent index child).liveAt other = arena.liveAt other :=
  congrArg (Option.getD · false) (column_kept (slots_place apart arena index other) fun _ => rfl)

theorem generationAt_place :
    (arena.place parent index child).generationAt other = arena.generationAt other :=
  column_kept (slots_place apart arena index other) fun _ => rfl

theorem viewAt_place : (arena.place parent index child).viewAt other = arena.viewAt other :=
  column_kept (slots_place apart arena index other) fun _ => rfl

end Placing

theorem slots_release (arena : Arena) (index other : Nat) :
    (arena.release index).slots[other]? = arena.slots[other]?.map fun slot =>
      if other = index then { slot with alive := false, parent := none, children := [] }
      else slot :=
  slots_modify _ index _ other

theorem parentAt_release (arena : Arena) (index other : Nat) :
    (arena.release index).parentAt other =
      if other = index then none else arena.parentAt other := by
  rw [parentAt, slots_release, parentAt]
  cases arena.slots[other]? with
  | none => exact (ite_self none).symm
  | some slot => by_cases here : other = index <;> simp [here]

theorem childrenAt_release (arena : Arena) (index other : Nat) :
    (arena.release index).childrenAt other =
      if other = index then [] else arena.childrenAt other := by
  rw [childrenAt, slots_release, childrenAt]
  cases arena.slots[other]? with
  | none => exact (ite_self []).symm
  | some slot => by_cases here : other = index <;> simp [here]

theorem liveAt_release (arena : Arena) (index other : Nat) :
    (arena.release index).liveAt other =
      if other = index then false else arena.liveAt other := by
  rw [liveAt, slots_release, liveAt]
  cases arena.slots[other]? with
  | none => exact (ite_self false).symm
  | some slot => by_cases here : other = index <;> simp [here]

theorem generationAt_release (arena : Arena) (index other : Nat) :
    (arena.release index).generationAt other = arena.generationAt other :=
  column_kept (slots_release arena index other) fun slot => by split <;> rfl

theorem slots_redraw (arena : Arena) (index : Nat) (change : State → State) (other : Nat) :
    (arena.redraw index change).slots[other]? = arena.slots[other]?.map fun slot =>
      if other = index then { slot with view := change slot.view } else slot :=
  slots_modify _ _ _ _

theorem parentAt_redraw (arena : Arena) (index : Nat) (change : State → State) (other : Nat) :
    (arena.redraw index change).parentAt other = arena.parentAt other := by
  rw [parentAt, slots_redraw, parentAt]
  cases arena.slots[other]? with
  | none => rfl
  | some slot => by_cases here : other = index <;> simp [here]

theorem childrenAt_redraw (arena : Arena) (index : Nat) (change : State → State) (other : Nat) :
    (arena.redraw index change).childrenAt other = arena.childrenAt other :=
  congrArg (Option.getD · []) <|
    column_kept (slots_redraw arena index change other) fun slot => by split <;> rfl

theorem liveAt_redraw (arena : Arena) (index : Nat) (change : State → State) (other : Nat) :
    (arena.redraw index change).liveAt other = arena.liveAt other :=
  congrArg (Option.getD · false) <|
    column_kept (slots_redraw arena index change other) fun slot => by split <;> rfl

theorem generationAt_redraw (arena : Arena) (index : Nat) (change : State → State) (other : Nat) :
    (arena.redraw index change).generationAt other = arena.generationAt other :=
  column_kept (slots_redraw arena index change other) fun slot => by split <;> rfl

theorem viewAt_redraw (arena : Arena) (index : Nat) (change : State → State) (other : Nat) :
    (arena.redraw index change).viewAt other =
      if other = index then (arena.viewAt other).map change else arena.viewAt other := by
  rw [viewAt, slots_redraw, viewAt, Option.map_map]
  by_cases here : other = index
  · simp only [if_pos here, Option.map_map]
    rfl
  · simp only [if_neg here]
    rfl

theorem length_modify (arena : Arena) (index : Nat) (change : Slot → Slot) :
    (arena.modify index change).slots.length = arena.slots.length :=
  List.length_modify _ _ _

theorem length_detachSlot (arena : Arena) (index : Nat) :
    (arena.detachSlot index).slots.length = arena.slots.length := by
  unfold detachSlot
  split
  case h_1 => rw [length_modify, length_modify]
  case h_2 => rfl

theorem length_place (arena : Arena) (parent index child : Nat) :
    (arena.place parent index child).slots.length = arena.slots.length := by
  rw [place, length_modify, length_modify, length_detachSlot]

theorem length_release (arena : Arena) (index : Nat) :
    (arena.release index).slots.length = arena.slots.length :=
  length_modify _ _ _

theorem length_redraw (arena : Arena) (index : Nat) (change : State → State) :
    (arena.redraw index change).slots.length = arena.slots.length :=
  length_modify _ _ _

theorem free_detachSlot (arena : Arena) (index : Nat) :
    (arena.detachSlot index).free = arena.free := by
  unfold detachSlot
  split <;> rfl

theorem free_place (arena : Arena) (parent index child : Nat) :
    (arena.place parent index child).free = arena.free :=
  free_detachSlot arena child

end SessionReplay.View.Arena
