import SessionReplay.View.Arena
import Mathlib.Logic.Relation

/-!
Runs of an arena: the operations on it in any order, with what each gives back. An operation that
is refused leaves the arena as it was, but for a constructor that has made its view before it finds
that there is no place for it.
-/

namespace SessionReplay.View

/-- What can be set of a view. -/
inductive Setting where
  | kind (kind : Kind)
  | frame (frame : Rect)
  | transform (transform : Affine)
  | clip (clip : Option Rect)
  | paint (paint : Paint)
  | repaint (change : Paint → Paint)
  | text (text : String)
  | typography (typography : Typography)
  | image (image : Option Image)
  | masking (masking : Option Masking)
  | extra (name value : String)
  | dropExtra (name : String)
  | faults (faults : Faults)

def Setting.apply : Setting → State → State
  | .kind value, view => { view with kind := value }
  | .frame value, view => { view with frame := value }
  | .transform value, view => { view with transform := value }
  | .clip value, view => { view with clip := value }
  | .paint value, view => { view with paint := value }
  | .repaint change, view => { view with paint := change view.paint }
  | .text value, view => view.setText value
  | .typography value, view => view.setTypography value
  | .image value, view => { view with image := value }
  | .masking value, view => { view with masking := value }
  | .extra name value, view => view.setAttribute name value
  | .dropExtra name, view => view.removeAttribute name
  | .faults value, view => { view with faults := value }

inductive Operation where
  | create (kind : Kind) (frame : Rect)
  | container (parent : Option ViewHandle) (frame : Rect)
  | label (parent : Option ViewHandle) (frame : Rect) (text : String)
  | textField (parent : Option ViewHandle) (frame : Rect) (text : String)
  | imageView (parent : Option ViewHandle) (frame : Rect) (source : String)
  | destroy (view : ViewHandle)
  | addChild (parent child : ViewHandle)
  | insertChild (parent : ViewHandle) (index : Nat) (child : ViewHandle)
  | detach (view : ViewHandle)
  | set (view : ViewHandle) (setting : Setting)

/-- The handle of the view that was made, if the operation makes one. -/
abbrev Reply := Except Refusal (Option ViewHandle)

namespace Arena

/-- A change that is refused leaves the arena as it is. -/
def changed (arena : Arena) : Except Refusal Arena → Arena × Reply
  | .ok after => (after, .ok none)
  | .error refusal => (arena, .error refusal)

def made : Arena × Except Refusal ViewHandle → Arena × Reply
  | (arena, result) => (arena, result.map some)

def perform (arena : Arena) : Operation → Arena × Reply
  | .create kind frame =>
      let (view, arena) := arena.create { kind, frame }
      (arena, .ok (some view))
  | .container parent frame => made (arena.container parent frame)
  | .label parent frame text => made (arena.label parent frame text)
  | .textField parent frame text => made (arena.textField parent frame text)
  | .imageView parent frame source => made (arena.imageView parent frame source)
  | .destroy view => arena.changed (arena.destroy view)
  | .addChild parent child => arena.changed (arena.addChild parent child)
  | .insertChild parent index child => arena.changed (arena.insertChild parent index child)
  | .detach view => arena.changed (arena.detach view)
  | .set view setting => arena.changed (arena.update view setting.apply)

/-- The arena after these operations, whether they are refused or not. -/
def after (arena : Arena) (operations : List Operation) : Arena :=
  operations.foldl (fun arena operation => (arena.perform operation).1) arena

theorem after_concat (arena : Arena) (operations : List Operation) (operation : Operation) :
    arena.after (operations ++ [operation]) = ((arena.after operations).perform operation).1 :=
  List.foldl_append

/-- Puts a slot among the children of another, which are those without it. -/
def place (arena : Arena) (parent index child : Nat) : Arena :=
  ((arena.detachSlot child).modify parent fun slot =>
      { slot with children := slot.children.insertIdx (min index slot.children.length) child })
    |>.modify child fun slot => { slot with parent := some parent }

/-- Changes what a slot's view looks like. -/
def redraw (arena : Arena) (index : Nat) (change : State → State) : Arena :=
  arena.modify index fun slot => { slot with view := change slot.view }

section Outcomes

variable (arena : Arena) (view parent child : ViewHandle)

theorem require_alive {arena : Arena} {view : ViewHandle} (alive : arena.isAlive view = true) :
    arena.require view = .ok view.slot := by
  rw [require, if_pos alive]

theorem require_stale {arena : Arena} {view : ViewHandle} (stale : arena.isAlive view = false) :
    arena.require view = .error (.stale view) := by
  rw [require, stale]
  rfl

theorem destroy_eq : arena.destroy view =
    if arena.isAlive view then .ok ((arena.detachSlot view.slot).releaseAll [view.slot])
    else .error (.stale view) := by
  unfold destroy
  split
  case isTrue alive => rw [require_alive alive]; rfl
  case isFalse stale => rw [require_stale (eq_false_of_ne_true stale)]; rfl

theorem detach_eq : arena.detach view =
    if arena.isAlive view then .ok (arena.detachSlot view.slot) else .error (.stale view) := by
  unfold detach
  split
  case isTrue alive => rw [require_alive alive]; rfl
  case isFalse stale => rw [require_stale (eq_false_of_ne_true stale)]; rfl

theorem update_eq (change : State → State) : arena.update view change =
    if arena.isAlive view then .ok (arena.redraw view.slot change) else .error (.stale view) := by
  unfold update
  split
  case isTrue alive => rw [require_alive alive]; rfl
  case isFalse stale => rw [require_stale (eq_false_of_ne_true stale)]; rfl

theorem insertChild_eq (index : Nat) : arena.insertChild parent index child =
    if arena.isAlive parent then
      if arena.isAlive child then
        if parent.slot = child.slot then .error .ownChild
        else .ok (arena.place parent.slot index child.slot)
      else .error (.stale child)
    else .error (.stale parent) := by
  unfold insertChild
  split
  case isTrue alive =>
    rw [require_alive alive]
    split
    case isTrue alive =>
      rw [require_alive alive]
      change (if parent.slot = child.slot then (_ : Except Refusal Arena) else _) = _
      split <;> rfl
    case isFalse stale => rw [require_stale (eq_false_of_ne_true stale)]; rfl
  case isFalse stale => rw [require_stale (eq_false_of_ne_true stale)]; rfl

/-- The place at the end is told before the child leaves its former parent. -/
theorem addChild_eq : arena.addChild parent child =
    arena.insertChild parent (arena.childrenAt parent.slot).length child := by
  unfold addChild
  by_cases alive : arena.isAlive parent = true
  · rw [require_alive alive]
    rfl
  · rw [require_stale (eq_false_of_ne_true alive), insertChild_eq, if_neg alive]
    rfl

/-- Finds the place for a new view, if it is to have one. -/
def settle (created : Arena) (view : ViewHandle) : Option ViewHandle → Except Refusal Arena
  | some parent => created.addChild parent view
  | none => .ok created

theorem attached_eq (place : Option ViewHandle) (kind : Kind) (frame : Rect)
    (fill : State → State) : arena.attached place kind frame fill =
      let (view, created) := arena.create { kind, frame }
      match (created.settle view place).bind (·.update view fill) with
      | .ok filled => (filled, .ok view)
      | .error refusal => (created, .error refusal) := by
  cases place <;> rfl

/-- A constructor makes its view, finds a place for it and fills it, unless one of these is
refused. -/
theorem attached_cases (place : Option ViewHandle) (kind : Kind) (frame : Rect)
    (fill : State → State) :
    (∃ settled filled,
      (arena.create { kind, frame }).2.settle (arena.create { kind, frame }).1 place =
        .ok settled ∧
      settled.update (arena.create { kind, frame }).1 fill = .ok filled ∧
      arena.attached place kind frame fill = (filled, .ok (arena.create { kind, frame }).1)) ∨
    ∃ refusal, arena.attached place kind frame fill =
      ((arena.create { kind, frame }).2, .error refusal) := by
  rw [attached_eq]
  generalize arena.create { kind, frame } = pair
  obtain ⟨view, created⟩ := pair
  dsimp only
  cases found : created.settle view place with
  | error refusal => exact .inr ⟨refusal, rfl⟩
  | ok settled =>
      rw [Except.bind]
      cases drawn : settled.update view fill with
      | error refusal => exact .inr ⟨refusal, rfl⟩
      | ok filled => exact .inl ⟨settled, filled, rfl, drawn, rfl⟩

/-- A constructor that is not refused has found a place for its view and filled it. -/
theorem made_attached {arena after : Arena} {place : Option ViewHandle} {kind : Kind} {frame : Rect}
    {fill : State → State} {reply : Option ViewHandle}
    (done : made (arena.attached place kind frame fill) = (after, .ok reply)) :
    reply = some (arena.create { kind, frame }).1 ∧ ∃ settled,
      (arena.create { kind, frame }).2.settle (arena.create { kind, frame }).1 place =
        .ok settled ∧
      settled.update (arena.create { kind, frame }).1 fill = .ok after := by
  rcases attached_cases arena place kind frame fill with
    ⟨settled, filled, found, drawn, result⟩ | ⟨refusal, result⟩
  · rw [result] at done
    obtain ⟨rfl, same⟩ := Prod.mk.inj done
    exact ⟨(Except.ok.inj same).symm, settled, found, drawn⟩
  · rw [result] at done
    have refused := (Prod.mk.inj done).2
    contradiction

end Outcomes

/-- What an operation can do at a time. -/
inductive Change : Arena → Arena → Prop
  | create (arena : Arena) (view : State) : Change arena (arena.create view).2
  | detach (arena : Arena) {view : ViewHandle} (alive : arena.isAlive view = true) :
      Change arena (arena.detachSlot view.slot)
  | place (arena : Arena) {parent child : ViewHandle} (index : Nat)
      (parentAlive : arena.isAlive parent = true) (childAlive : arena.isAlive child = true)
      (apart : parent.slot ≠ child.slot) : Change arena (arena.place parent.slot index child.slot)
  | destroy (arena : Arena) {view : ViewHandle} (alive : arena.isAlive view = true) :
      Change arena ((arena.detachSlot view.slot).releaseAll [view.slot])
  | redraw (arena : Arena) {view : ViewHandle} (change : State → State)
      (alive : arena.isAlive view = true) : Change arena (arena.redraw view.slot change)

section Changes

variable {arena after : Arena}

theorem change_insertChild {parent child : ViewHandle} {index : Nat}
    (done : arena.insertChild parent index child = .ok after) :
    arena.isAlive parent = true ∧ arena.isAlive child = true ∧ parent.slot ≠ child.slot ∧
      after = arena.place parent.slot index child.slot := by
  rw [insertChild_eq] at done
  split at done
  case isTrue parentAlive =>
    split at done
    case isTrue childAlive =>
      split at done
      case isTrue => contradiction
      case isFalse apart => exact ⟨parentAlive, childAlive, apart, (Except.ok.inj done).symm⟩
    case isFalse => contradiction
  case isFalse => contradiction

theorem change_update {view : ViewHandle} {change : State → State}
    (done : arena.update view change = .ok after) :
    arena.isAlive view = true ∧ after = arena.redraw view.slot change := by
  rw [update_eq] at done
  split at done
  case isTrue alive => exact ⟨alive, (Except.ok.inj done).symm⟩
  case isFalse => contradiction

theorem change_detach {view : ViewHandle} (done : arena.detach view = .ok after) :
    arena.isAlive view = true ∧ after = arena.detachSlot view.slot := by
  rw [detach_eq] at done
  split at done
  case isTrue alive => exact ⟨alive, (Except.ok.inj done).symm⟩
  case isFalse => contradiction

theorem change_destroy {view : ViewHandle} (done : arena.destroy view = .ok after) :
    arena.isAlive view = true ∧
      after = (arena.detachSlot view.slot).releaseAll [view.slot] := by
  rw [destroy_eq] at done
  split at done
  case isTrue alive => exact ⟨alive, (Except.ok.inj done).symm⟩
  case isFalse => contradiction

open Relation (ReflTransGen)

theorem changes_attached (arena : Arena) (place : Option ViewHandle) (kind : Kind) (frame : Rect)
    (fill : State → State) :
    ReflTransGen Change arena (arena.attached place kind frame fill).1 := by
  have created := ReflTransGen.single (Change.create arena { kind, frame })
  rcases attached_cases arena place kind frame fill with
    ⟨settled, filled, found, drawn, result⟩ | ⟨refusal, result⟩
  · rw [result]
    obtain ⟨alive, rfl⟩ := change_update drawn
    refine ReflTransGen.tail ?_ (.redraw settled fill alive)
    cases place with
    | none => exact Except.ok.inj found ▸ created
    | some parent =>
        rw [settle, addChild_eq] at found
        obtain ⟨parentAlive, childAlive, apart, rfl⟩ := change_insertChild found
        exact created.tail (.place _ _ parentAlive childAlive apart)
  · rw [result]
    exact created

theorem changes_changed {result : Except Refusal Arena}
    (done : ∀ after, result = .ok after → Change arena after) :
    ReflTransGen Change arena (arena.changed result).1 := by
  cases result with
  | error refusal => exact .refl
  | ok after => exact .single (done after rfl)

/-- An operation is nothing but such changes, whatever comes of it. -/
theorem changes_perform (arena : Arena) (operation : Operation) :
    ReflTransGen Change arena (arena.perform operation).1 := by
  cases operation with
  | create kind frame => exact .single (.create arena { kind, frame })
  | container parent frame => exact changes_attached arena parent .container frame id
  | label parent frame text => exact changes_attached arena parent .text frame (.setText text)
  | textField parent frame text => exact changes_attached arena parent .input frame (.setText text)
  | imageView parent frame source => exact changes_attached arena parent .image frame _
  | destroy view =>
      apply changes_changed
      intro after done
      obtain ⟨alive, rfl⟩ := change_destroy done
      exact .destroy arena alive
  | addChild parent child =>
      apply changes_changed
      intro after done
      rw [addChild_eq] at done
      obtain ⟨parentAlive, childAlive, apart, rfl⟩ := change_insertChild done
      exact .place arena _ parentAlive childAlive apart
  | insertChild parent index child =>
      apply changes_changed
      intro after done
      obtain ⟨parentAlive, childAlive, apart, rfl⟩ := change_insertChild done
      exact .place arena index parentAlive childAlive apart
  | detach view =>
      apply changes_changed
      intro after done
      obtain ⟨alive, rfl⟩ := change_detach done
      exact .detach arena alive
  | set view setting =>
      apply changes_changed
      intro after done
      obtain ⟨alive, rfl⟩ := change_update done
      exact .redraw arena _ alive

/-- What every change keeps is kept all along a run. -/
theorem after_induction {motive : Arena → Prop} {arena : Arena} (start : motive arena)
    (keeps : ∀ before after, motive before → Change before after → motive after)
    (operations : List Operation) : motive (arena.after operations) := by
  induction operations generalizing arena with
  | nil => exact start
  | cons operation operations induction =>
      have first : motive (arena.perform operation).1 := by
        have done := changes_perform arena operation
        generalize (arena.perform operation).1 = next at done
        induction done with
        | refl => exact start
        | tail _ change known => exact keeps _ _ known change
      exact induction first

end Changes

end Arena

end SessionReplay.View
