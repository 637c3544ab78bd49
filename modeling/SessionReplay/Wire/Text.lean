import SessionReplay.Json
import SessionReplay.Wire.Event

/-!
The JSON form of events. Members stand in a fixed order. What a node does not have is left out,
and the style flag is written only when it is set.
-/

namespace SessionReplay.Wire

def Id.toJson (id : Id) : Json := .integer id.number

mutual

def Node.toJson : Node → Json
  | .document id children =>
      .object [("type", .integer 0), ("id", id.toJson), ("childNodes", .array (nodesToJson children))]
  | .element id tag attributes children =>
      .object [("type", .integer 2), ("id", id.toJson), ("tagName", .string tag.name),
        ("attributes", .ofProperties attributes), ("childNodes", .array (nodesToJson children))]
  | .text id content isStyle =>
      .object ([("type", .integer 3), ("id", id.toJson), ("textContent", .string content)] ++
        if isStyle then [("isStyle", .bool true)] else [])

def nodesToJson : List Node → List Json
  | [] => []
  | node :: nodes => node.toJson :: nodesToJson nodes

end

def AttributeValue.toJson : AttributeValue → Json
  | text value => .stringOrNull value
  | style delta => .ofDelta delta

def Addition.toJson (addition : Addition) : Json :=
  .object [("parentId", addition.parent.toJson),
    ("nextId", (addition.next.map Id.toJson).getD .null), ("node", addition.node.toJson)]

def Removal.toJson (removal : Removal) : Json :=
  .object [("parentId", removal.parent.toJson), ("id", removal.id.toJson)]

def TextChange.toJson (change : TextChange) : Json :=
  .object [("id", change.id.toJson), ("value", .string change.value)]

def AttributeChange.toJson (change : AttributeChange) : Json :=
  .object [("id", change.id.toJson),
    ("attributes", .object (change.attributes.toList.map fun (name, value) => (name, value.toJson)))]

def TouchPosition.toJson (position : TouchPosition) : Json :=
  .object [("id", position.id.toJson), ("x", .number position.place.x), ("y", .number position.place.y),
    ("timeOffset", .integer position.timeOffset)]

def Increment.members : Increment → List (String × Json)
  | mutation changes =>
      [("adds", .array (changes.adds.map Addition.toJson)),
       ("removes", .array (changes.removes.map Removal.toJson)),
       ("texts", .array (changes.texts.map TextChange.toJson)),
       ("attributes", .array (changes.attributes.map AttributeChange.toJson))]
  | pointer kind target place =>
      [("type", .integer kind.code), ("id", target.toJson), ("x", .number place.x),
       ("y", .number place.y)]
  | touch positions => [("positions", .array (positions.map TouchPosition.toJson))]

/-- A snapshot is always taken unscrolled. -/
def Payload.toJson : Payload → Json
  | snapshot document =>
      .object [("node", document.toJson),
        ("initialOffset", .object [("top", .number 0), ("left", .number 0)])]
  | increment step => .object (("source", .integer step.sourceCode) :: step.members)
  | page href width height =>
      .object [("href", .string href), ("width", .integer width.toNat),
        ("height", .integer height.toNat)]

def Event.toJson (event : Event) : Json :=
  .object [("type", .integer event.payload.typeCode), ("data", event.payload.toJson),
    ("timestamp", .integer event.time.millis.toNat)]

def Event.text (event : Event) : String := event.toJson.compact

end SessionReplay.Wire
