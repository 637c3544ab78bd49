import SessionReplay.Geometry
import SessionReplay.Identity.Key
import SessionReplay.Paint
import SessionReplay.Style.Basic
import SessionReplay.Tree

/-!
The nodes of a recorded document. A document is a tree of nodes: a document node on top, elements
below it, and text. Besides its id a node has a face, which is all that can be seen of it.
-/

namespace SessionReplay

inductive Tag where
  | div
  | img
  | input
deriving DecidableEq, Inhabited, Repr

def Tag.name : Tag → String
  | div => "div"
  | img => "img"
  | input => "input"

abbrev Attributes := Properties

structure Element where
  tag : Tag
  attributes : Attributes := ∅
  style : Style := ∅
deriving DecidableEq, Inhabited

inductive Kind where
  | document
  | element (element : Element)
  | text (content : String) (isStyle : Bool)
deriving DecidableEq, Inhabited

namespace Kind

/-- Nodes of one shape can turn into each other by changes alone. -/
def sameShape : Kind → Kind → Bool
  | document, document => true
  | element first, element second => first.tag = second.tag
  | text _ first, text _ second => first = second
  | _, _ => false

def element? : Kind → Option Element
  | element inner => some inner
  | _ => none

def content? : Kind → Option String
  | text content _ => some content
  | _ => none

end Kind

/-- Everything of a node but its id. -/
structure Face where
  kind : Kind
  frame : Rect := .zero
  clip : Rect := .zero
  paint : Paint := {}
  masked : Bool := false
deriving BEq, Inhabited

structure Node extends Face where
  id : NodeId
deriving BEq, Inhabited

/-- The attribute of an element whose children were left out. -/
def truncationMark : String := "data-rt-truncated"

def Kind.isTruncated : Kind → Bool
  | element inner => inner.attributes.contains truncationMark
  | _ => false

namespace Document

def ids (tree : Tree Node) : List NodeId := tree.preorder.map (·.id)

/-- The first node in document order with this id, with all below it. -/
def find? (id : NodeId) (tree : Tree Node) : Option (Tree Node) := tree.find? (·.id = id)

end Document

end SessionReplay
