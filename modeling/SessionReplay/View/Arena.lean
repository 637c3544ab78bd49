import SessionReplay.View.Introspection

/-!
An arena of views. A view lives in a slot, and when it is destroyed its slot can be used again, in
the slot's next generation. A handle names slot and generation, so a handle of a destroyed view
stays stale for ever. An operation on a stale handle is refused.
-/

namespace SessionReplay.View

/-- The questions that a view is made to fail. -/
structure Faults where
  kind : Bool := false
  geometry : Bool := false
  paint : Bool := false
  content : Bool := false
deriving DecidableEq, Inhabited, Repr

def Faults.all : Faults := ⟨true, true, true, true⟩

/-- All that is kept of a view but its place among the others. -/
structure State where
  kind : Kind
  frame : Rect
  transform : Affine := .identity
  clip : Option Rect := none
  paint : Paint := {}
  text : Option TextContent := none
  image : Option Image := none
  masking : Option Masking := none
  /-- In the order in which they were first set. -/
  attributes : List (String × String) := []
  faults : Faults := {}

namespace State

def setText (text : String) (view : State) : State :=
  { view with text := some { view.text.getD {} with text } }

def setTypography (typography : Typography) (view : State) : State :=
  { view with text := some { view.text.getD {} with typography } }

/-- A name that is there keeps its place. -/
def setAttribute (name value : String) (view : State) : State :=
  if view.attributes.any (·.1 = name) then
    { view with
      attributes := view.attributes.map fun entry =>
        if entry.1 = name then (name, value) else entry }
  else { view with attributes := view.attributes ++ [(name, value)] }

def removeAttribute (name : String) (view : State) : State :=
  { view with attributes := view.attributes.filter (·.1 ≠ name) }

end State

structure Slot where
  view : State
  parent : Option Nat := none
  children : List Nat := []
  generation : Nat := 0
  alive : Bool := true

/-- Why an operation was refused. -/
inductive Refusal where
  | stale (view : ViewHandle)
  | ownChild
deriving DecidableEq, Repr

def Refusal.message : Refusal → String
  | stale view => "stale view handle " ++ view.label
  | ownChild => "a view cannot be its own child"

structure Arena where
  slots : List Slot := []
  /-- The slots of destroyed views, the next to be used first. -/
  free : List Nat := []

namespace Arena

/-- The number of live views. -/
def size (arena : Arena) : Nat := arena.slots.countP (·.alive)

def slot? (arena : Arena) (view : ViewHandle) : Option Slot :=
  arena.slots[view.slot]?.filter fun slot => slot.alive && slot.generation = view.generation

def isAlive (arena : Arena) (view : ViewHandle) : Bool := (arena.slot? view).isSome

/-- The handle of the view in a slot. -/
def handle (arena : Arena) (index : Nat) : ViewHandle :=
  .ofParts index ((arena.slots[index]?.map Slot.generation).getD 0)

/-- The slot of a view, which must be alive. -/
def require (arena : Arena) (view : ViewHandle) : Except Refusal Nat :=
  if arena.isAlive view then .ok view.slot else .error (.stale view)

def modify (arena : Arena) (index : Nat) (change : Slot → Slot) : Arena :=
  { arena with slots := arena.slots.modify index change }

/-- A new view without a parent. -/
def create (arena : Arena) (view : State) : ViewHandle × Arena :=
  match arena.free with
  | index :: free =>
      let arena := { arena with free }.modify index fun slot =>
        { view, generation := slot.generation + 1 }
      (arena.handle index, arena)
  | [] =>
      let index := arena.slots.length
      let arena := { arena with slots := arena.slots ++ [{ view }] }
      (arena.handle index, arena)

def detachSlot (arena : Arena) (index : Nat) : Arena :=
  match arena.slots[index]?.bind Slot.parent with
  | some parent =>
      (arena.modify parent fun slot => { slot with children := slot.children.filter (· ≠ index) })
        |>.modify index fun slot => { slot with parent := none }
  | none => arena

def detach (arena : Arena) (view : ViewHandle) : Except Refusal Arena := do
  return arena.detachSlot (← arena.require view)

/-- How many children all the slots name. -/
def links (arena : Arena) : Nat := (arena.slots.flatMap (·.children)).length

/-- Marks a slot free and takes its children from it. -/
def release (arena : Arena) (index : Nat) : Arena :=
  { arena with free := index :: arena.free }.modify index fun slot =>
    { slot with alive := false, parent := none, children := [] }

def childrenAt (arena : Arena) (index : Nat) : List Nat :=
  (arena.slots[index]?.map Slot.children).getD []

theorem length_modify_children (slots : List Slot) (index : Nat) (change : Slot → Slot)
    (empties : ∀ slot, (change slot).children = []) :
    ((slots.modify index change).flatMap (·.children)).length +
        ((slots[index]?.map Slot.children).getD []).length =
      (slots.flatMap (·.children)).length := by
  induction slots generalizing index with
  | nil => simp
  | cons slot slots induction =>
      cases index with
      | zero =>
          simp only [List.modify_zero_cons, List.flatMap_cons, List.length_append, empties,
            List.length_nil, List.getElem?_cons_zero, Option.map_some, Option.getD_some]
          omega
      | succ index =>
          have rest := induction index
          simp only [List.modify_succ_cons, List.flatMap_cons, List.length_append,
            List.getElem?_cons_succ]
          omega

theorem links_release (arena : Arena) (index : Nat) :
    (arena.release index).links + (arena.childrenAt index).length = arena.links :=
  length_modify_children arena.slots index _ fun _ => rfl

/-- Destroys the pending slots and all below them; the last child of a slot comes first. -/
def releaseAll (arena : Arena) : (pending : List Nat) → Arena
  | [] => arena
  | index :: pending =>
      releaseAll (arena.release index) ((arena.childrenAt index).reverse ++ pending)
termination_by pending => arena.links + pending.length
decreasing_by
  have balance := links_release arena index
  simp only [List.length_append, List.length_reverse, List.length_cons]
  omega

/-- Destroys a view and everything inside it. -/
def destroy (arena : Arena) (view : ViewHandle) : Except Refusal Arena := do
  let index ← arena.require view
  return (arena.detachSlot index).releaseAll [index]

/-- Puts a view among the children of another, at the end if there are fewer than `index`. It
leaves its former parent. Nothing keeps a view out of its own descendants. -/
def insertChild (arena : Arena) (parent : ViewHandle) (index : Nat) (child : ViewHandle) :
    Except Refusal Arena := do
  let parentSlot ← arena.require parent
  let childSlot ← arena.require child
  if parentSlot = childSlot then throw .ownChild
  return (arena.detachSlot childSlot).modify parentSlot (fun slot =>
      { slot with children := slot.children.insertIdx (min index slot.children.length) childSlot })
    |>.modify childSlot fun slot => { slot with parent := some parentSlot }

def addChild (arena : Arena) (parent child : ViewHandle) : Except Refusal Arena := do
  let parentSlot ← arena.require parent
  arena.insertChild parent (arena.childrenAt parentSlot).length child

def update (arena : Arena) (view : ViewHandle) (change : State → State) :
    Except Refusal Arena := do
  return arena.modify (← arena.require view) fun slot => { slot with view := change slot.view }

/-- A new view as the last child of `parent`. When that is refused the view is there, without a
parent and without its content. -/
def attached (arena : Arena) (parent : Option ViewHandle) (kind : Kind) (frame : Rect)
    (fill : State → State) : Arena × Except Refusal ViewHandle :=
  let (view, created) := arena.create { kind, frame }
  let placed := do
    let arena ← match parent with
      | some parent => created.addChild parent view
      | none => pure created
    arena.update view fill
  match placed with
  | .ok arena => (arena, .ok view)
  | .error refusal => (created, .error refusal)

def container (arena : Arena) (parent : Option ViewHandle) (frame : Rect) :
    Arena × Except Refusal ViewHandle :=
  arena.attached parent .container frame id

def label (arena : Arena) (parent : Option ViewHandle) (frame : Rect) (text : String) :
    Arena × Except Refusal ViewHandle :=
  arena.attached parent .text frame (.setText text)

def textField (arena : Arena) (parent : Option ViewHandle) (frame : Rect) (text : String) :
    Arena × Except Refusal ViewHandle :=
  arena.attached parent .input frame (.setText text)

def imageView (arena : Arena) (parent : Option ViewHandle) (frame : Rect) (source : String) :
    Arena × Except Refusal ViewHandle :=
  arena.attached parent .image frame fun view => { view with image := some { source } }

def parent? (arena : Arena) (view : ViewHandle) : Option ViewHandle :=
  ((arena.slot? view).bind Slot.parent).map arena.handle

def children (arena : Arena) (view : ViewHandle) : List ViewHandle :=
  match arena.slot? view with
  | some slot => slot.children.map arena.handle
  | none => []

/-- Asks a live view, unless it is made to fail. -/
def ask (arena : Arena) (view : ViewHandle) (query : String) (fails : Faults → Bool)
    (answer : State → α) : Answer α :=
  match arena.slot? view with
  | none => .error .detached
  | some slot =>
      if fails slot.view.faults then .error (.unavailable ("injected " ++ query ++ " failure"))
      else .ok (answer slot.view)

def introspector (arena : Arena) : Introspector where
  kind view := arena.ask view "kind" Faults.kind State.kind
  frame view := arena.ask view "frame" Faults.geometry State.frame
  transform view := ((arena.slot? view).map (·.view.transform)).getD .identity
  clip view := arena.ask view "clip" Faults.geometry State.clip
  paint view := arena.ask view "paint" Faults.paint State.paint
  text view := arena.ask view "text" Faults.content State.text
  image view := arena.ask view "image" Faults.content State.image
  children := arena.children
  masking view := (arena.slot? view).bind (·.view.masking)
  attributes view := ((arena.slot? view).map (·.view.attributes)).getD []

end Arena

end SessionReplay.View
