import SessionReplay.Proofs.Json.Spelling
import SessionReplay.Wire.Encoder
import SessionReplay.Wire.Text

/-!
The text of an event tells which event it is. The JSON form of an event gives everything in it, and
the text of the JSON form tells the form. Only the places of pointers are left out, since they are
fractions; the offset of a snapshot is one too, but always the same.
-/

namespace SessionReplay

open Function (Injective)
open Json (Apart Exact)

namespace Json

theorem stringOrNull_injective : Injective stringOrNull := by
  intro first second same
  cases first <;> cases second <;> simp_all [stringOrNull]

theorem exact_stringOrNull (value : Option String) : Exact (stringOrNull value) := by
  cases value with
  | none => exact .null
  | some text => exact .string text

theorem eq_of_members {α : Type} {toJson : α → Json} (injective : Injective toJson)
    {first second : Std.ExtTreeMap String α}
    (same : (first.toList.map fun (name, value) => (name, toJson value)) =
      second.toList.map fun (name, value) => (name, toJson value)) : first = second := by
  apply Std.ExtTreeMap.toList_inj.mp
  apply (List.map_inj_right _).mp same
  rintro ⟨name, value⟩ ⟨other, otherValue⟩ alike
  rw [Prod.mk.injEq] at alike ⊢
  exact ⟨alike.1, injective alike.2⟩

theorem exact_members {α : Type} {toJson : α → Json} (each : ∀ value, Exact (toJson value))
    (values : Std.ExtTreeMap String α) :
    Exact (object (values.toList.map fun (name, value) => (name, toJson value))) := by
  apply Exact.object
  intro member listed
  obtain ⟨entry, -, rfl⟩ := List.mem_map.mp listed
  exact each entry.2

theorem exact_array_map {α : Type} {toJson : α → Json} (each : ∀ value, Exact (toJson value))
    (values : List α) : Exact (array (values.map toJson)) := by
  apply Exact.array
  intro item listed
  obtain ⟨value, -, rfl⟩ := List.mem_map.mp listed
  exact each value

end Json

namespace Wire

theorem Id.number_injective : Injective Id.number := by
  intro first second same
  have below : ∀ id : NodeId, id.val.toNat < wrapperBase := fun id => id.val.toNat_lt
  have determined : ∀ id other : NodeId, id.val.toNat = other.val.toNat → id = other := by
    rintro ⟨id⟩ ⟨other⟩ values
    exact congrArg NodeId.mk (UInt32.toNat_inj.mp values)
  cases first with
  | node id =>
      cases second with
      | node other => exact congrArg Id.node (determined id other same)
      | wrapper other =>
          have low := below id
          have high : id.val.toNat = wrapperBase + other.val.toNat := same
          omega
  | wrapper id =>
      cases second with
      | node other =>
          have low := below other
          have high : wrapperBase + id.val.toNat = other.val.toNat := same
          omega
      | wrapper other =>
          exact congrArg Id.wrapper (determined id other (Nat.add_left_cancel same))

theorem Id.toJson_injective : Injective Id.toJson := by
  intro first second same
  apply Id.number_injective
  exact Int.ofNat.inj (Json.integer.inj same)

theorem Tag.name_injective : Injective Tag.name := by
  intro first second same
  cases first <;> cases second <;> first | rfl | exact absurd same (by decide)

mutual

theorem Node.exact_toJson : ∀ node : Node, Exact node.toJson
  | .document id children => by
      have below := exact_nodesToJson children
      apply Exact.object
      simp [Id.toJson, Exact.integer, Exact.array below]
  | .element id tag attributes children => by
      have below := exact_nodesToJson children
      apply Exact.object
      simp [Id.toJson, Exact.integer, Exact.string, Exact.array below, Json.ofProperties,
        Json.exact_members]
  | .text id content isStyle => by
      apply Exact.object
      cases isStyle <;> simp [Id.toJson, Exact.integer, Exact.string, Exact.bool]

theorem exact_nodesToJson : ∀ nodes : List Node, ∀ item ∈ nodesToJson nodes, Exact item
  | [], _, member => nomatch member
  | node :: nodes, item, member => by
      rcases List.mem_cons.mp member with rfl | later
      · exact node.exact_toJson
      · exact exact_nodesToJson nodes item later

end

mutual

theorem Node.eq_of_toJson : ∀ {first second : Node}, first.toJson = second.toJson → first = second
  | .document id children, .document other others, same => by
      simp only [Node.toJson, Json.object.injEq, List.cons.injEq, Prod.mk.injEq, true_and, and_true,
        Json.array.injEq] at same
      rw [Id.toJson_injective same.1, eq_of_nodesToJson same.2]
  | .element id tag attributes children, .element other otherTag more others, same => by
      simp only [Node.toJson, Json.object.injEq, List.cons.injEq, Prod.mk.injEq, true_and, and_true,
        Json.array.injEq, Json.string.injEq, Json.ofProperties] at same
      obtain ⟨ids, tags, entries, below⟩ := same
      rw [Id.toJson_injective ids, Tag.name_injective tags,
        Json.eq_of_members (fun _ _ => Json.string.inj) entries, eq_of_nodesToJson below]
  | .text id content isStyle, .text other others isOtherStyle, same => by
      cases isStyle <;> cases isOtherStyle <;> simp [Node.toJson] at same
      · rw [Id.toJson_injective same.1, same.2]
      · rw [Id.toJson_injective same.1, same.2]
  | .document .., .element .., same => by simp [Node.toJson] at same
  | .document .., .text .., same => by simp [Node.toJson] at same
  | .element .., .document .., same => by simp [Node.toJson] at same
  | .element .., .text .., same => by simp [Node.toJson] at same
  | .text .., .document .., same => by simp [Node.toJson] at same
  | .text .., .element .., same => by simp [Node.toJson] at same

theorem eq_of_nodesToJson : ∀ {nodes others : List Node}, nodesToJson nodes = nodesToJson others →
    nodes = others
  | [], [], _ => rfl
  | [], _ :: _, same => nomatch same
  | _ :: _, [], same => nomatch same
  | node :: nodes, other :: others, same => by
      rw [nodesToJson, nodesToJson, List.cons.injEq] at same
      rw [Node.eq_of_toJson same.1, eq_of_nodesToJson same.2]

end

theorem Node.toJson_injective : Injective Node.toJson := fun _ _ => Node.eq_of_toJson

theorem Id.exact_toJson (id : Id) : Exact id.toJson := .integer _

theorem AttributeValue.exact_toJson (value : AttributeValue) : Exact value.toJson := by
  cases value with
  | text value => exact Json.exact_stringOrNull value
  | style delta => exact Json.exact_members Json.exact_stringOrNull delta

/-- A removed attribute, a text and a style are written as different kinds of values. -/
theorem AttributeValue.toJson_injective : Injective AttributeValue.toJson := by
  intro first second same
  cases first with
  | text value =>
      cases second with
      | text other => exact congrArg text (Json.stringOrNull_injective same)
      | style delta => cases value <;> cases same
  | style delta =>
      cases second with
      | text value => cases value <;> cases same
      | style other =>
          exact congrArg style (Json.eq_of_members Json.stringOrNull_injective
            (Json.object.inj same))

theorem exact_next (next : Option Id) : Exact ((next.map Id.toJson).getD .null) := by
  cases next with
  | none => exact .null
  | some id => exact id.exact_toJson

theorem next_injective : Injective fun next : Option Id => (next.map Id.toJson).getD .null := by
  intro first second same
  cases first with
  | none =>
      cases second with
      | none => rfl
      | some id => cases same
  | some id =>
      cases second with
      | none => cases same
      | some other => exact congrArg some (Id.toJson_injective same)

theorem Addition.exact_toJson (addition : Addition) : Exact addition.toJson := by
  apply Exact.object
  simp [Id.exact_toJson, exact_next, Node.exact_toJson]

theorem Addition.toJson_injective : Injective Addition.toJson := by
  rintro ⟨parent, next, node⟩ ⟨other, otherNext, otherNode⟩ same
  simp only [toJson, Json.object.injEq, List.cons.injEq, Prod.mk.injEq, true_and, and_true] at same
  obtain ⟨parents, nexts, nodes⟩ := same
  rw [Id.toJson_injective parents, next_injective nexts, Node.toJson_injective nodes]

theorem Removal.exact_toJson (removal : Removal) : Exact removal.toJson := by
  apply Exact.object
  simp [Id.exact_toJson]

theorem Removal.toJson_injective : Injective Removal.toJson := by
  rintro ⟨parent, id⟩ ⟨other, otherId⟩ same
  simp only [toJson, Json.object.injEq, List.cons.injEq, Prod.mk.injEq, true_and, and_true] at same
  rw [Id.toJson_injective same.1, Id.toJson_injective same.2]

theorem TextChange.exact_toJson (change : TextChange) : Exact change.toJson := by
  apply Exact.object
  simp [Id.exact_toJson, Exact.string]

theorem TextChange.toJson_injective : Injective TextChange.toJson := by
  rintro ⟨id, value⟩ ⟨other, otherValue⟩ same
  simp only [toJson, Json.object.injEq, List.cons.injEq, Prod.mk.injEq, true_and, and_true,
    Json.string.injEq] at same
  rw [Id.toJson_injective same.1, same.2]

theorem AttributeChange.exact_toJson (change : AttributeChange) : Exact change.toJson := by
  apply Exact.object
  simp [Id.exact_toJson, Json.exact_members AttributeValue.exact_toJson]

theorem AttributeChange.toJson_injective : Injective AttributeChange.toJson := by
  rintro ⟨id, values⟩ ⟨other, otherValues⟩ same
  simp only [toJson, Json.object.injEq, List.cons.injEq, Prod.mk.injEq, true_and, and_true] at same
  rw [Id.toJson_injective same.1, Json.eq_of_members AttributeValue.toJson_injective same.2]

/-- What is told of a document or of its page, and not of the pointer. -/
inductive Payload.Documentary : Payload → Prop
  | snapshot (document : Node) : Documentary (.snapshot document)
  | mutation (changes : Mutation) : Documentary (.increment (.mutation changes))
  | page (href : String) (width height : UInt32) : Documentary (.page href width height)

namespace Payload

/-- Only snapshots have fractions in them. -/
theorem Documentary.cases {payload : Payload} (plain : Documentary payload) :
    (∃ document, payload = .snapshot document) ∨ Exact payload.toJson := by
  cases plain with
  | snapshot document => exact .inl ⟨document, rfl⟩
  | mutation changes =>
      right
      apply Exact.object
      simp [Increment.members, Exact.integer, Json.exact_array_map Addition.exact_toJson,
        Json.exact_array_map Removal.exact_toJson, Json.exact_array_map TextChange.exact_toJson,
        Json.exact_array_map AttributeChange.exact_toJson]
  | page href width height =>
      right
      apply Exact.object
      simp [Exact.integer, Exact.string]

/-- A snapshot has no member in common with other payloads, and two have the same fractions. -/
theorem snapshot_apart (document : Node) {second : Payload} (plain : Documentary second) :
    Apart (snapshot document).toJson second.toJson := by
  cases plain with
  | snapshot other =>
      have offset : Apart (.object [("top", .number 0), ("left", .number 0)])
          (.object [("top", .number 0), ("left", .number 0)]) := by
        apply Json.apart_object
        simp [Json.apart_number]
      apply Json.apart_object
      simp [offset, document.exact_toJson.apart other.exact_toJson]
  | mutation changes =>
      apply Json.apart_object
      simp [Increment.members]
  | page href width height =>
      apply Json.apart_object
      simp

theorem Documentary.apart {first second : Payload} (plain : Documentary first)
    (plainSecond : Documentary second) : Apart first.toJson second.toJson := by
  rcases plain.cases with ⟨document, rfl⟩ | exact
  · exact snapshot_apart document plainSecond
  · rcases plainSecond.cases with ⟨document, rfl⟩ | exactSecond
    · exact (snapshot_apart document plain).symm
    · exact exact.apart exactSecond

theorem Documentary.eq_of_toJson {first second : Payload} (plain : Documentary first)
    (plainSecond : Documentary second) (same : first.toJson = second.toJson) : first = second := by
  cases plain with
  | snapshot document =>
      cases plainSecond with
      | snapshot other =>
          simp only [toJson, Json.object.injEq, List.cons.injEq, Prod.mk.injEq, true_and,
            and_true] at same
          rw [Node.toJson_injective same]
      | mutation changes => simp [toJson, Increment.members] at same
      | page => simp [toJson] at same
  | mutation changes =>
      cases plainSecond with
      | snapshot other => simp [toJson, Increment.members] at same
      | mutation others =>
          simp only [toJson, Increment.members, Json.object.injEq, List.cons.injEq, Prod.mk.injEq,
            true_and, and_true, Json.array.injEq,
            List.map_inj_right fun _ _ => @Addition.toJson_injective _ _,
            List.map_inj_right fun _ _ => @Removal.toJson_injective _ _,
            List.map_inj_right fun _ _ => @TextChange.toJson_injective _ _,
            List.map_inj_right fun _ _ => @AttributeChange.toJson_injective _ _] at same
          obtain ⟨adds, removes, texts, attributes⟩ := changes
          obtain ⟨otherAdds, otherRemoves, otherTexts, otherAttributes⟩ := others
          obtain ⟨rfl, rfl, rfl, rfl⟩ := same.2
          rfl
      | page => simp [toJson, Increment.members] at same
  | page href width height =>
      cases plainSecond with
      | snapshot other => simp [toJson] at same
      | mutation changes => simp [toJson, Increment.members] at same
      | page other otherWidth otherHeight =>
          simp only [toJson, Json.object.injEq, List.cons.injEq, Prod.mk.injEq, true_and, and_true,
            Json.string.injEq, Json.integer.injEq, Int.ofNat_inj, UInt32.toNat_inj] at same
          obtain ⟨rfl, rfl, rfl⟩ := same
          rfl

end Payload

/-- The events that an encoder makes of documents and records, and those about the page. -/
inductive Encoded : Event → Prop
  | snapshot (encoder : Encoder) (tree : Tree SessionReplay.Node) (time : Timestamp) :
      Encoded (encoder.encodeSnapshot tree time)
  | records (encoder : Encoder) (records : List Record) (time : Timestamp) :
      Encoded (encoder.encodeRecords records time)
  | page (href : String) (width height : UInt32) (time : Timestamp) :
      Encoded (encodePage href width height time)

theorem Encoded.documentary {event : Event} (encoded : Encoded event) :
    event.payload.Documentary := by
  cases encoded with
  | snapshot encoder tree time => exact .snapshot _
  | records encoder records time => exact .mutation _
  | page href width height time => exact .page href width height

theorem Event.apart {first second : Event} (plain : first.payload.Documentary)
    (plainSecond : second.payload.Documentary) : Apart first.toJson second.toJson := by
  apply Json.apart_object
  simp [Json.apart_integer, plain.apart plainSecond]

theorem Event.eq_of_toJson {first second : Event} (plain : first.payload.Documentary)
    (plainSecond : second.payload.Documentary) (same : first.toJson = second.toJson) :
    first = second := by
  simp only [toJson, Json.object.injEq, List.cons.injEq, Prod.mk.injEq, true_and, and_true,
    Json.integer.injEq, Int.ofNat_inj, UInt64.toNat_inj] at same
  obtain ⟨payload, ⟨millis⟩⟩ := first
  obtain ⟨other, ⟨otherMillis⟩⟩ := second
  have payloads : payload = other := plain.eq_of_toJson plainSecond same.2.1
  have times : millis = otherMillis := same.2.2
  rw [payloads, times]

/-- The text of an encoded event tells which event it is. -/
theorem Encoded.text_eq_iff {first second : Event} (encoded : Encoded first)
    (encodedSecond : Encoded second) : first.text = second.text ↔ first = second := by
  have plain := encoded.documentary
  have plainSecond := encodedSecond.documentary
  constructor
  · intro same
    exact Event.eq_of_toJson plain plainSecond ((Event.apart plain plainSecond).eq same)
  · exact congrArg Event.text

/-- A text cannot pass for the flag that says that a text is a style. -/
theorem Encoded.text_eq_iff_flag :
    (({} : Encoder).encodeRecords
        [.add ⟨1⟩ none (.node { id := ⟨2⟩, kind := .text "a" true } [])] ⟨7⟩).text ≠
      (({} : Encoder).encodeRecords
        [.add ⟨1⟩ none (.node { id := ⟨2⟩, kind := .text "a\",\"isStyle\":true" false } [])]
        ⟨7⟩).text := by
  rw [Ne, Encoded.text_eq_iff (.records _ _ _) (.records _ _ _)]
  simp [Encoder.encodeRecords, Encoder.mutationOf, Encoder.encodeRecord, Encoder.encodeNode]

end Wire

end SessionReplay
