import SessionReplay.Proofs.Tree.Shape
import SessionReplay.Wire.Encoder

/-!
What an encoder conceals. Documents that differ only in masked content, with every masked text as
long as its counterpart, are sent as the same events, and so are changes that differ in this way.
-/

namespace SessionReplay

/-- Texts that are equal, or masked and of the same length. -/
def AlikeText (masked : Bool) (first second : String) : Prop :=
  first = second ∨ masked = true ∧ first.length = second.length

/-- Values of an attribute that are equal, or hold masked content: the source of an image may be
any, other content is of the same length. -/
def AlikeValue (masked : Bool) (name first second : String) : Prop :=
  first = second ∨ masked = true ∧
    (name = "src" ∨ name ∈ ["value", "alt", "placeholder"] ∧ first.length = second.length)

inductive AlikeKind (masked : Bool) : Kind → Kind → Prop
  | document : AlikeKind masked .document .document
  | element {tag : Tag} {style : Style} {first second : Attributes}
      (values : ∀ name, Option.Rel (AlikeValue masked name) first[name]? second[name]?) :
      AlikeKind masked (.element ⟨tag, first, style⟩) (.element ⟨tag, second, style⟩)
  | text {first second : String} {isStyle : Bool} (content : AlikeText masked first second) :
      AlikeKind masked (.text first isStyle) (.text second isStyle)

/-- Nodes that differ only in masked content, and in where and how they are drawn. -/
structure AlikeNode (first second : Node) : Prop where
  id : first.id = second.id
  masked : first.masked = second.masked
  kind : AlikeKind second.masked first.kind second.kind

inductive AlikeRecord : Record → Record → Prop
  | add {parent : NodeId} {next : Option NodeId} {first second : Tree Node}
      (subtree : first.Matches AlikeNode second) :
      AlikeRecord (.add parent next first) (.add parent next second)
  | remove {parent id : NodeId} : AlikeRecord (.remove parent id) (.remove parent id)
  | text {id : NodeId} {masked : Bool} {first second : String}
      (content : AlikeText masked first second) :
      AlikeRecord (.text id first masked) (.text id second masked)
  | attributes {id : NodeId} {masked : Bool} {style first second : KeyDelta}
      (values : ∀ name, Option.Rel (Option.Rel (AlikeValue masked name)) first[name]?
        second[name]?) :
      AlikeRecord (.attributes id masked first style) (.attributes id masked second style)

namespace Wire.Encoder

variable (encoder : Encoder)

theorem redact_alike {first second : String} (lengths : first.length = second.length) :
    encoder.redact first = encoder.redact second := by
  rw [redact, redact, lengths]

theorem visible_eq_iff {masked : Bool} {first second : String} :
    encoder.visible masked first = encoder.visible masked second ↔
      AlikeText masked first second := by
  cases masked with
  | false => simp [visible, AlikeText]
  | true =>
      constructor
      · intro same
        have letters := congrArg String.length same
        simp only [visible, redact, if_true, String.length_ofList, List.length_replicate] at letters
        exact .inr ⟨rfl, letters⟩
      · rintro (rfl | ⟨-, lengths⟩)
        · rfl
        · exact encoder.redact_alike lengths

theorem hidden_alike {name first second : String} (alike : AlikeValue true name first second) :
    encoder.hidden name first = encoder.hidden name second := by
  rcases alike with rfl | ⟨-, rfl | ⟨content, lengths⟩⟩
  · rfl
  · rfl
  · have sensitive : isSensitive name = true := by
      simpa [isSensitive, or_assoc] using content
    rw [hidden, hidden, if_pos sensitive, if_pos sensitive, encoder.redact_alike lengths]

theorem shown_alike {masked : Bool} {name first second : String}
    (alike : AlikeValue masked name first second) :
    (if masked then encoder.hidden name first else some first) =
      if masked then encoder.hidden name second else some second := by
  cases masked with
  | false =>
      rcases alike with rfl | ⟨masked, -⟩
      · rfl
      · contradiction
  | true => exact encoder.hidden_alike alike

theorem getElem?_visibleAttributes (masked : Bool) (attributes : Attributes) (name : String) :
    (encoder.visibleAttributes masked attributes)[name]? =
      attributes[name]?.bind fun value =>
        if masked then encoder.hidden name value else some value := by
  cases masked with
  | false => exact (Option.bind_fun_some _).symm
  | true => exact Std.ExtTreeMap.getElem?_filterMap'

theorem contains_mark_visibleAttributes (masked : Bool) (attributes : Attributes) :
    (encoder.visibleAttributes masked attributes).contains truncationMark =
      attributes.contains truncationMark := by
  have shown : ∀ value, encoder.hidden truncationMark value = some value := by
    intro value
    simp [hidden, isSensitive, truncationMark]
  rw [Std.ExtTreeMap.contains_eq_isSome_getElem?, Std.ExtTreeMap.contains_eq_isSome_getElem?,
    getElem?_visibleAttributes]
  cases attributes[truncationMark]? <;> simp [shown]

theorem attributeValue_eq (masked : Bool) (name : String) (value : Option String) :
    encoder.attributeValue masked name value = .text (value.bind fun value =>
      if masked then encoder.hidden name value else some value) := by
  cases masked with
  | false => exact congrArg AttributeValue.text (Option.bind_fun_some _).symm
  | true => rfl

theorem bind_of_rel {α β : Type} {related : α → α → Prop} {first second : Option α}
    {f : α → Option β} (alike : Option.Rel related first second)
    (same : ∀ value other, related value other → f value = f other) :
    first.bind f = second.bind f := by
  cases alike with
  | none => rfl
  | some values => exact same _ _ values

theorem visibleAttributes_alike {masked : Bool} {first second : Attributes}
    (alike : ∀ name, Option.Rel (AlikeValue masked name) first[name]? second[name]?) :
    encoder.visibleAttributes masked first = encoder.visibleAttributes masked second := by
  apply Std.ExtTreeMap.ext_getElem?
  intro name
  rw [getElem?_visibleAttributes, getElem?_visibleAttributes]
  exact bind_of_rel (alike name) fun value other => encoder.shown_alike

/-- Documents that differ only in masked content are sent as the same nodes. -/
theorem encodeNode_alike (depth : Nat) {first second : Tree SessionReplay.Node}
    (alike : first.Matches AlikeNode second) :
    encoder.encodeNode depth first = encoder.encodeNode depth second := by
  induction first using Tree.children_induction generalizing depth second with
  | step data children induction =>
      cases alike with
      | @node _ other _ others here below =>
          have inside : encoder.encodeNodes (depth + 1) children =
              encoder.encodeNodes (depth + 1) others := by
            rw [encodeNodes_eq_map, encodeNodes_eq_map]
            exact Tree.map_of_forall₂ below fun child member _ => induction child member (depth + 1)
          have empty : children.isEmpty = others.isEmpty := by
            cases below <;> rfl
          obtain ⟨id, masked, kind⟩ := here
          rw [encodeNode, encodeNode, inside, empty, id, masked]
          generalize data.kind = dataKind at kind
          generalize other.kind = otherKind at kind
          cases kind with
          | document => rfl
          | element values =>
              simp only [elementAttributes, encoder.visibleAttributes_alike values]
          | text content => simp only [encoder.visible_eq_iff.mpr content]

theorem encodeTopChild_alike {first second : Tree SessionReplay.Node}
    (alike : first.Matches AlikeNode second) :
    encoder.encodeTopChild first = encoder.encodeTopChild second := by
  unfold encodeTopChild
  rw [encoder.encodeNode_alike 2 alike, encoder.encodeNode_alike 1 alike, alike.data.id]
  have kind := alike.data.kind
  generalize first.data.kind = firstKind at kind
  generalize second.data.kind = secondKind at kind
  cases kind <;> rfl

theorem encodeTree_alike {first second : Tree SessionReplay.Node}
    (alike : first.Matches AlikeNode second) :
    encoder.encodeTree first = encoder.encodeTree second := by
  have children : first.children.map encoder.encodeTopChild =
      second.children.map encoder.encodeTopChild := by
    cases alike with
    | node here below =>
        exact Tree.map_of_forall₂ below fun _ _ _ => encoder.encodeTopChild_alike
  unfold encodeTree
  rw [encoder.encodeNode_alike 0 alike, children, alike.data.id]
  have kind := alike.data.kind
  generalize first.data.kind = firstKind at kind
  generalize second.data.kind = secondKind at kind
  cases kind <;> rfl

theorem attributeValues_alike {masked : Bool} {first second : KeyDelta}
    (alike : ∀ name, Option.Rel (Option.Rel (AlikeValue masked name)) first[name]? second[name]?)
    (style : KeyDelta) :
    encoder.attributeValues masked first style = encoder.attributeValues masked second style := by
  have values : first.map (encoder.attributeValue masked) =
      second.map (encoder.attributeValue masked) := by
    apply Std.ExtTreeMap.ext_getElem?
    intro name
    simp only [Std.ExtTreeMap.getElem?_map, Option.map_eq_bind]
    apply bind_of_rel (alike name)
    intro value other same
    rw [Function.comp_apply, Function.comp_apply, attributeValue_eq, attributeValue_eq,
      bind_of_rel same fun value other => encoder.shown_alike]
  simp only [attributeValues, values]

theorem encodeRecord_alike {first second : Record} (alike : AlikeRecord first second)
    (mutation : Mutation) :
    encoder.encodeRecord first mutation = encoder.encodeRecord second mutation := by
  cases alike with
  | add subtree => simp only [encodeRecord, encoder.encodeNode_alike 0 subtree]
  | remove => rfl
  | text content => simp only [encodeRecord, encoder.visible_eq_iff.mpr content]
  | attributes values => simp only [encodeRecord, encoder.attributeValues_alike values]

theorem mutationOf_alike {first second : List Record} (alike : List.Forall₂ AlikeRecord first second) :
    encoder.mutationOf first = encoder.mutationOf second := by
  induction alike with
  | nil => rfl
  | cons record _ induction =>
      rw [mutationOf, mutationOf] at induction ⊢
      rw [List.foldr_cons, List.foldr_cons, induction, encoder.encodeRecord_alike record]

/-- Of masked content nothing is sent but its length, and of a text that much is sent. -/
theorem encode_conceals :
    (∀ first second : Tree SessionReplay.Node, first.Matches AlikeNode second →
      ∀ time, encoder.encodeSnapshot first time = encoder.encodeSnapshot second time) ∧
    (∀ first second : List Record, List.Forall₂ AlikeRecord first second →
      ∀ time, encoder.encodeRecords first time = encoder.encodeRecords second time) ∧
    (∀ id masked first second time,
      encoder.encodeRecords [.text id first masked] time =
        encoder.encodeRecords [.text id second masked] time ↔ AlikeText masked first second) := by
  refine ⟨?_, ?_, ?_⟩
  · intro first second alike time
    rw [encodeSnapshot, encodeSnapshot, encoder.encodeTree_alike alike]
  · intro first second alike time
    rw [encodeRecords, encodeRecords, encoder.mutationOf_alike alike]
  · intro id masked first second time
    rw [← encoder.visible_eq_iff]
    simp [encodeRecords, mutationOf, encodeRecord]

/-- A masked card: a picture with a number as its text. -/
def card (number source : String) : Tree SessionReplay.Node :=
  .node
    { id := ⟨2⟩, masked := true
      kind := .element ⟨.img, (∅ : Attributes).insert "src" source |>.insert "alt" number, ∅⟩ }
    [.node { id := ⟨3⟩, masked := true, kind := .text number false } []]

theorem card_alike {first second : String} (lengths : first.length = second.length)
    (source other : String) : (card first source).Matches AlikeNode (card second other) := by
  have content : AlikeText true first second := .inr ⟨rfl, lengths⟩
  have values : ∀ name, Option.Rel (AlikeValue true name)
      ((∅ : Attributes).insert "src" source |>.insert "alt" first)[name]?
      ((∅ : Attributes).insert "src" other |>.insert "alt" second)[name]? := by
    intro name
    simp only [Std.ExtTreeMap.getElem?_insert]
    split
    case isTrue alt =>
      cases Std.LawfulEqOrd.eq_of_compare alt
      exact .some (.inr ⟨rfl, .inr ⟨by decide, lengths⟩⟩)
    case isFalse =>
      split
      case isTrue src =>
        cases Std.LawfulEqOrd.eq_of_compare src
        exact .some (.inr ⟨rfl, .inl rfl⟩)
      case isFalse => exact .none
  refine .node ⟨rfl, rfl, .element values⟩ (.cons ?_ .nil)
  exact .node ⟨rfl, rfl, .text content⟩ .nil

theorem encode_conceals_card :
    (card "1234" "card://mine").Matches AlikeNode (card "9876" "card://other") ∧
      ({} : Encoder).encodeSnapshot (card "1234" "card://mine") ⟨7⟩ =
        ({} : Encoder).encodeSnapshot (card "9876" "card://other") ⟨7⟩ ∧
      List.Forall₂ AlikeRecord [.add ⟨1⟩ none (card "1234" "card://mine"), .text ⟨4⟩ "me" true]
        [.add ⟨1⟩ none (card "9876" "card://other"), .text ⟨4⟩ "us" true] ∧
      ({} : Encoder).encodeRecords
          [.add ⟨1⟩ none (card "1234" "card://mine"), .text ⟨4⟩ "me" true] ⟨8⟩ =
        ({} : Encoder).encodeRecords
          [.add ⟨1⟩ none (card "9876" "card://other"), .text ⟨4⟩ "us" true] ⟨8⟩ ∧
      ¬({} : Encoder).encodeRecords [.text ⟨4⟩ "me" true] ⟨8⟩ =
        ({} : Encoder).encodeRecords [.text ⟨4⟩ "them" true] ⟨8⟩ := by
  have cards : (card "1234" "card://mine").Matches AlikeNode (card "9876" "card://other") :=
    card_alike (by decide) _ _
  have records : List.Forall₂ AlikeRecord
      [.add ⟨1⟩ none (card "1234" "card://mine"), .text ⟨4⟩ "me" true]
      [.add ⟨1⟩ none (card "9876" "card://other"), .text ⟨4⟩ "us" true] :=
    .cons (.add cards) (.cons (.text (.inr ⟨rfl, by decide⟩)) .nil)
  obtain ⟨snapshots, changes, texts⟩ := encode_conceals {}
  refine ⟨cards, snapshots _ _ cards _, records, changes _ _ records _, ?_⟩
  rw [texts]
  rintro (same | ⟨-, lengths⟩)
  · exact absurd same (by decide)
  · exact absurd lengths (by decide)

end Wire.Encoder

end SessionReplay
