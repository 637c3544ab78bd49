import SessionReplay.Document.Record
import SessionReplay.Wire.Event

/-!
From documents and records to events. Masked content is hidden here: of a masked text only its
length is sent, of a masked image a stand-in or nothing. Text directly below the document gets an
element around it. What lies below the deepest level is left out and its parent marked.
-/

namespace SessionReplay.Wire

inductive ImageMasking where
  | placeholder (source : String)
  | omit
deriving DecidableEq, Repr

structure Encoder where
  redaction : Char := '*'
  imageMasking : ImageMasking := .placeholder "retrace:masked-image"
  /-- The deepest level of nodes that is sent. -/
  maxDepth : UInt32 := 256
deriving DecidableEq, Repr

structure TouchSample where
  target : NodeId
  place : Point
  time : Timestamp

namespace Encoder

variable (encoder : Encoder)

/-- One redaction character for each character. -/
def redact (text : String) : String :=
  String.ofList (List.replicate text.length encoder.redaction)

def visible (masked : Bool) (text : String) : String := if masked then encoder.redact text else text

/-- Attributes that hold content of the user. -/
def isSensitive (name : String) : Bool := name = "value" || name = "alt" || name = "placeholder"

/-- What is sent for the value of a masked element's attribute, if anything. -/
def hidden (name value : String) : Option String :=
  if isSensitive name then some (encoder.redact value)
  else if name = "src" then
    match encoder.imageMasking with
    | .placeholder source => some source
    | .omit => none
  else some value

def visibleAttributes (masked : Bool) (attributes : Attributes) : Attributes :=
  if masked then attributes.filterMap encoder.hidden else attributes

/-- The style goes with the attributes, as one text. -/
def elementAttributes (masked : Bool) (element : Element) : Attributes :=
  let attributes := encoder.visibleAttributes masked element.attributes
  if element.style.isEmpty then attributes else attributes.insert "style" element.style.cssText

def mark (cut : Bool) (attributes : Attributes) : Attributes :=
  if cut then attributes.insert truncationMark "true" else attributes

mutual

/-- A document below the top is sent as a plain element. -/
def encodeNode (depth : Nat) : Tree SessionReplay.Node → Node
  | .node data children =>
      let cut := decide (encoder.maxDepth.toNat ≤ depth)
      let below := if cut then [] else encodeNodes (depth + 1) children
      let mark := mark (cut && !children.isEmpty)
      match data.kind with
      | .text content isStyle =>
          .text (.node data.id) (encoder.visible data.masked content) isStyle
      | .element element =>
          .element (.node data.id) element.tag
            (mark (encoder.elementAttributes data.masked element)) below
      | .document => .element (.node data.id) .div (mark ∅) below

def encodeNodes (depth : Nat) : List (Tree SessionReplay.Node) → List Node
  | [] => []
  | tree :: trees => encodeNode depth tree :: encodeNodes depth trees

end

theorem encodeNodes_eq_map (depth : Nat) (trees : List (Tree SessionReplay.Node)) :
    encoder.encodeNodes depth trees = trees.map (encoder.encodeNode depth) := by
  induction trees with
  | nil => rfl
  | cons tree trees induction => rw [encodeNodes, induction, List.map_cons]

/-- A child of the document; a text is put into an element, which takes up one level. -/
def encodeTopChild (tree : Tree SessionReplay.Node) : Node :=
  match tree.data.kind with
  | .text .. => .element (.wrapper tree.data.id) .div ∅ [encoder.encodeNode 2 tree]
  | _ => encoder.encodeNode 1 tree

def encodeTree (tree : Tree SessionReplay.Node) : Node :=
  match tree.data.kind with
  | .document =>
      .document (.node tree.data.id)
        (if encoder.maxDepth = 0 then [] else tree.children.map encoder.encodeTopChild)
  | _ => encoder.encodeNode 0 tree

def encodeSnapshot (tree : Tree SessionReplay.Node) (time : Timestamp) : Event :=
  ⟨.snapshot (encoder.encodeTree tree), time⟩

/-- What is sent for a change of one attribute. -/
def attributeValue (masked : Bool) (name : String) (value : Option String) : AttributeValue :=
  .text (if masked then value.bind (encoder.hidden name) else value)

def attributeValues (masked : Bool) (attributes style : KeyDelta) :
    Std.ExtTreeMap String AttributeValue :=
  let values := attributes.map (encoder.attributeValue masked)
  if style.isEmpty then values else values.insert "style" (.style style)

/-- Adds what is sent for one record. A change of attributes that leaves nothing to send is
dropped. -/
def encodeRecord (record : Record) (mutation : Mutation) : Mutation :=
  match record with
  | .add parent next subtree =>
      { mutation with
        adds := ⟨.node parent, next.map .node, encoder.encodeNode 0 subtree⟩ :: mutation.adds }
  | .remove parent id =>
      { mutation with removes := ⟨.node parent, .node id⟩ :: mutation.removes }
  | .text id content masked =>
      { mutation with texts := ⟨.node id, encoder.visible masked content⟩ :: mutation.texts }
  | .attributes id masked attributes style =>
      let values := encoder.attributeValues masked attributes style
      if values.isEmpty then mutation
      else { mutation with attributes := ⟨.node id, values⟩ :: mutation.attributes }

def mutationOf (records : List Record) : Mutation := records.foldr encoder.encodeRecord {}

def encodeRecords (records : List Record) (time : Timestamp) : Event :=
  ⟨.increment (.mutation (encoder.mutationOf records)), time⟩

end Encoder

def encodePage (href : String) (width height : UInt32) (time : Timestamp) : Event :=
  ⟨.page href width height, time⟩

def encodePointer (kind : PointerKind) (target : NodeId) (place : Point) (time : Timestamp) :
    Event :=
  ⟨.increment (.pointer kind (.node target) place), time⟩

def encodeTouch (samples : List TouchSample) (time : Timestamp) : Event :=
  ⟨.increment (.touch (samples.map fun sample =>
    ⟨.node sample.target, sample.place, sample.time.offset time⟩)), time⟩

end SessionReplay.Wire
