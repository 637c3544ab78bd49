import SessionReplay.Document.Node
import SessionReplay.Time
import Std.Data.ExtTreeMap

/-!
The events a recording consists of: a full snapshot of the document, an event about the page it
fills, and the increments in between, which are mutations and the user's pointer.
-/

namespace SessionReplay.Wire

/-- A node of the document goes by its own number. An element that only wraps a text has no node
of its own, and goes by the number of the text, moved above all node numbers. -/
inductive Id where
  | node (id : NodeId)
  | wrapper (text : NodeId)
deriving DecidableEq, Repr

def wrapperBase : Nat := UInt32.size

def Id.number : Id → Nat
  | node id => id.val.toNat
  | wrapper text => wrapperBase + text.val.toNat

inductive Node where
  | document (id : Id) (children : List Node)
  | element (id : Id) (tag : Tag) (attributes : Attributes) (children : List Node)
  | text (id : Id) (content : String) (isStyle : Bool)

/-- What an attribute is set to. Without a text the attribute is removed; of the style only the
properties that change are given. -/
inductive AttributeValue where
  | text (value : Option String)
  | style (delta : KeyDelta)

structure Addition where
  parent : Id
  next : Option Id
  node : Node

structure Removal where
  parent : Id
  id : Id

structure TextChange where
  id : Id
  value : String

structure AttributeChange where
  id : Id
  attributes : Std.ExtTreeMap String AttributeValue

/-- Carried out in this order: the removals, the additions, the texts, the attributes. -/
structure Mutation where
  adds : List Addition := []
  removes : List Removal := []
  texts : List TextChange := []
  attributes : List AttributeChange := []

def Mutation.isEmpty (mutation : Mutation) : Bool :=
  mutation.adds.isEmpty && mutation.removes.isEmpty && mutation.texts.isEmpty &&
    mutation.attributes.isEmpty

inductive PointerKind where
  | mouseUp
  | mouseDown
  | click
  | contextMenu
  | doubleClick
  | focus
  | blur
  | touchStart
  | touchEnd
deriving DecidableEq, Repr

def PointerKind.code : PointerKind → Nat
  | mouseUp => 0
  | mouseDown => 1
  | click => 2
  | contextMenu => 3
  | doubleClick => 4
  | focus => 5
  | blur => 6
  | touchStart => 7
  | touchEnd => 9

/-- One point of a touch, with its time relative to the event's. -/
structure TouchPosition where
  id : Id
  place : Point
  timeOffset : Int

inductive Increment where
  | mutation (changes : Mutation)
  | pointer (kind : PointerKind) (target : Id) (place : Point)
  | touch (positions : List TouchPosition)

inductive Payload where
  | snapshot (document : Node)
  | increment (step : Increment)
  | page (href : String) (width height : UInt32)

structure Event where
  payload : Payload
  time : Timestamp

namespace Payload

def typeCode : Payload → Nat
  | snapshot _ => 2
  | increment _ => 3
  | page .. => 4

/-- Whether this is a mutation that changes nothing. -/
def isEmptyMutation : Payload → Bool
  | increment (.mutation changes) => changes.isEmpty
  | _ => false

end Payload

def Increment.sourceCode : Increment → Nat
  | mutation _ => 0
  | pointer .. => 2
  | touch _ => 6

end SessionReplay.Wire
