import SessionReplay.Geometry
import SessionReplay.Identity.Key
import SessionReplay.Masking
import SessionReplay.Paint

/-!
What can be asked of a view, and the ways in which a question can fail.
-/

namespace SessionReplay.View

/-- `unknown` is a view of some class that has no counterpart in a document. -/
inductive Kind where
  | container
  | text
  | input
  | image
  | unknown (className : String)
deriving DecidableEq, Inhabited, Repr

/-- The kind of content by which masking is decided. -/
def Kind.content : Kind → Masking.Content
  | text => .text
  | input => .input
  | image => .image
  | container | unknown _ => .container

structure TextContent where
  text : String := ""
  typography : Typography := {}
deriving BEq, Inhabited, Repr

structure Image where
  source : String
  label : Option String := none
deriving DecidableEq, Inhabited, Repr

inductive IntrospectionError where
  | detached
  | unavailable (cause : String)
deriving DecidableEq, Repr

def IntrospectionError.message : IntrospectionError → String
  | detached => "view is no longer attached"
  | unavailable cause => "view introspection failed: " ++ cause

abbrev Answer (α : Type) := Except IntrospectionError α

/-- A host's answers about its views. Frame and clip are in the coordinates of the view's parent.
The view's own coordinates are those of its children, and the transform takes them to its parent's.
Children come from back to front. -/
structure Introspector where
  kind : ViewHandle → Answer Kind
  frame : ViewHandle → Answer Rect
  transform : ViewHandle → Affine := fun _ => .identity
  clip : ViewHandle → Answer (Option Rect)
  paint : ViewHandle → Answer Paint
  text : ViewHandle → Answer (Option TextContent)
  image : ViewHandle → Answer (Option Image)
  children : ViewHandle → List ViewHandle
  masking : ViewHandle → Option Masking
  attributes : ViewHandle → List (String × String) := fun _ => []

/-- The same host, saying nothing of transforms and further attributes. -/
def Introspector.plain (source : Introspector) : Introspector :=
  { source with transform := fun _ => .identity, attributes := fun _ => [] }

end SessionReplay.View
