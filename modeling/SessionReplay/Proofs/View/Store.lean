import SessionReplay.Proofs.View.Run
import Mathlib.Logic.Function.Basic
import Mathlib.Logic.Relation

/-!
An arena as those see it who hold its handles: a store of views, each with a handle that was never
given before. The store knows no slots. It is told the handle of every new view and what is done
with the handles since.
-/

namespace SessionReplay.View

/-- What is kept of a view beside its place among the others. -/
inductive Property where
  | kind
  | frame
  | transform
  | clip
  | paint
  | text
  | image
  | masking
  | attributes
  | faults
deriving DecidableEq

abbrev Property.Value : Property → Type
  | kind => Kind
  | frame => Rect
  | transform => Affine
  | clip => Option Rect
  | paint => Paint
  | text => Option TextContent
  | image => Option Image
  | masking => Option Masking
  | attributes => List (String × String)
  | faults => Faults

abbrev Profile := (property : Property) → property.Value

/-- A new view has nothing but its kind and its frame. -/
def Profile.fresh (kind : Kind) (frame : Rect) : Profile
  | .kind => kind
  | .frame => frame
  | .transform => .identity
  | .clip => none
  | .paint => {}
  | .text => none
  | .image => none
  | .masking => none
  | .attributes => []
  | .faults => {}

namespace Setting

/-- The one property that is set. -/
def property : Setting → Property
  | kind _ => .kind
  | frame _ => .frame
  | transform _ => .transform
  | clip _ => .clip
  | paint _ | repaint _ => .paint
  | text _ | typography _ => .text
  | image _ => .image
  | masking _ => .masking
  | extra _ _ | dropExtra _ => .attributes
  | faults _ => .faults

/-- What it is set to, which may depend on what it was. -/
def value : (setting : Setting) → Profile → setting.property.Value
  | kind value, _ => value
  | frame value, _ => value
  | transform value, _ => value
  | clip value, _ => value
  | paint value, _ => value
  | repaint change, profile => change (profile .paint)
  | text words, profile => some { (profile .text).getD {} with text := words }
  | typography value, profile => some { (profile .text).getD {} with typography := value }
  | image value, _ => value
  | masking value, _ => value
  | extra name value, profile =>
      if (profile .attributes).any (·.1 = name) then
        (profile .attributes).map fun entry => if entry.1 = name then (name, value) else entry
      else profile .attributes ++ [(name, value)]
  | dropExtra name, profile => (profile .attributes).filter (·.1 ≠ name)
  | faults value, _ => value

end Setting

/-- A view is there if it has a profile. -/
@[ext]
structure Store where
  profile : ViewHandle → Option Profile := fun _ => none
  children : ViewHandle → List ViewHandle := fun _ => []
  parent : ViewHandle → Option ViewHandle := fun _ => none

/-- An operation that was done, with the handle of the view it made. -/
structure Entry where
  operation : Operation
  made : Option ViewHandle

namespace Store

open Function (update)

/-- A view holds another inside it, at any depth, or is it. -/
def Reaches (store : Store) : ViewHandle → ViewHandle → Prop :=
  Relation.ReflTransGen fun parent child => child ∈ store.children parent

def create (store : Store) (view : ViewHandle) (kind : Kind) (frame : Rect) : Store where
  profile := update store.profile view (some (.fresh kind frame))
  children := update store.children view []
  parent := update store.parent view none

/-- No list but the former parent's changes. -/
def detach (store : Store) (view : ViewHandle) : Store where
  profile := store.profile
  children other :=
    if store.parent view = some other then (store.children other).filter (· ≠ view)
    else store.children other
  parent := update store.parent view none

/-- The place is counted among the children without `child`. -/
def insert (store : Store) (parent : ViewHandle) (index : Nat) (child : ViewHandle) : Store :=
  let rest := store.detach child
  let siblings := rest.children parent
  { profile := rest.profile
    children := update rest.children parent (siblings.insertIdx (min index siblings.length) child)
    parent := update rest.parent child (some parent) }

def append (store : Store) (parent child : ViewHandle) : Store :=
  store.insert parent (store.children parent).length child

open Classical in
/-- A view goes with all that is inside it once it has left its parent. -/
noncomputable def destroy (store : Store) (view : ViewHandle) : Store :=
  let rest := store.detach view
  { profile := fun other => if rest.Reaches view other then none else rest.profile other
    children := fun other => if rest.Reaches view other then [] else rest.children other
    parent := fun other => if rest.Reaches view other then none else rest.parent other }

def set (store : Store) (view : ViewHandle) (setting : Setting) : Store :=
  { store with
    profile := update store.profile view <|
      (store.profile view).map fun profile =>
        update profile setting.property (setting.value profile) }

/-- A new view that may have a parent. -/
def attached (store : Store) (view : ViewHandle) (place : Option ViewHandle) (kind : Kind)
    (frame : Rect) : Store :=
  let created := store.create view kind frame
  match place with
  | some parent => created.append parent view
  | none => created

noncomputable def perform (store : Store) (entry : Entry) : Store :=
  match entry.operation, entry.made with
  | .create kind frame, some view => store.create view kind frame
  | .container place frame, some view => store.attached view place .container frame
  | .label place frame text, some view => (store.attached view place .text frame).set view (.text text)
  | .textField place frame text, some view =>
      (store.attached view place .input frame).set view (.text text)
  | .imageView place frame source, some view =>
      (store.attached view place .image frame).set view (.image (some { source }))
  | .destroy view, none => store.destroy view
  | .addChild parent child, none => store.append parent child
  | .insertChild parent index child, none => store.insert parent index child
  | .detach view, none => store.detach view
  | .set view setting, none => store.set view setting
  | _, _ => store

/-- The store after all that was done. -/
noncomputable def after (log : List Entry) : Store := log.foldl perform {}

theorem after_concat (log : List Entry) (entry : Entry) :
    after (log ++ [entry]) = (after log).perform entry :=
  List.foldl_append

/-- Asks a view that is there, unless it is made to fail. -/
def ask (store : Store) (view : ViewHandle) (query : String) (fails : Faults → Bool)
    (property : Property) : Answer property.Value :=
  match store.profile view with
  | none => .error .detached
  | some profile =>
      if fails (profile .faults) then
        .error (.unavailable ("injected " ++ query ++ " failure"))
      else .ok (profile property)

def introspector (store : Store) : Introspector where
  kind view := store.ask view "kind" Faults.kind .kind
  frame view := store.ask view "frame" Faults.geometry .frame
  transform view := ((store.profile view).map (· .transform)).getD .identity
  clip view := store.ask view "clip" Faults.geometry .clip
  paint view := store.ask view "paint" Faults.paint .paint
  text view := store.ask view "text" Faults.content .text
  image view := store.ask view "image" Faults.content .image
  children := store.children
  masking view := (store.profile view).bind (· .masking)
  attributes view := ((store.profile view).map (· .attributes)).getD []

end Store

def Store.There (store : Store) (view : ViewHandle) : Prop := (store.profile view).isSome = true

/-- An operation asks for nothing but views that are there, and for no view inside itself. -/
def Operation.Allowed (store : Store) : Operation → Prop
  | .create .. => True
  | .container place .. | .label place .. | .textField place .. | .imageView place .. =>
      ∀ parent, place = some parent → store.There parent
  | .destroy view | .detach view | .set view _ => store.There view
  | .addChild parent child | .insertChild parent _ child =>
      store.There parent ∧ store.There child ∧ parent ≠ child

/-- The handles that were given so far. -/
def handles (log : List Entry) : List ViewHandle := log.filterMap Entry.made

/-- Since the view was made, neither it nor a view that held it at the time was destroyed. -/
def Lives (log : List Entry) (view : ViewHandle) : Prop :=
  ∃ before entry later, log = before ++ entry :: later ∧ entry.made = some view ∧
    ∀ middle last rest, later = middle ++ last :: rest →
      ∀ target, last.operation = .destroy target →
        ¬ (Store.after (before ++ entry :: middle)).Reaches target view

/-- A run of operations none of which is refused. -/
inductive Run : List Entry → Arena → Prop
  | start : Run [] {}
  | next {log : List Entry} {arena after : Arena} {operation : Operation}
      {made : Option ViewHandle} (run : Run log arena)
      (done : arena.perform operation = (after, .ok made)) : Run (log ++ [⟨operation, made⟩]) after

/-- All questions about the view are answered as if it had never been. -/
structure Introspector.Detached (source : Introspector) (view : ViewHandle) : Prop where
  kind : source.kind view = .error .detached
  frame : source.frame view = .error .detached
  transform : source.transform view = .identity
  clip : source.clip view = .error .detached
  paint : source.paint view = .error .detached
  text : source.text view = .error .detached
  image : source.image view = .error .detached
  children : source.children view = []
  masking : source.masking view = none
  attributes : source.attributes view = []

end SessionReplay.View
