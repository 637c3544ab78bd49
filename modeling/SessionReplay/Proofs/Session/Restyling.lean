import SessionReplay.Proofs.Session.Drift

/-!
Which styles are read back. The style of a captured element is merged from what its view declares
and from what is derived from the view, and it is sent as one text. Every part of it is legible
but the family of a text, which is taken over as the view gives it.
-/

namespace SessionReplay

namespace View.Introspector

/-- The family that a view gave this style, if any did, is legible. -/
def SetsLegibly (source : Introspector) (root : ViewHandle) (style : Style) : Prop :=
  ∀ view, source.Reaches root view → ∀ family, source.family? view = some family →
    style["font-family"]? = some family → Style.LegibleValue family

end View.Introspector

namespace Style

/-- Merging a change into what was read of a style leads to the new style only where the style was
read back: no change at all is one of them. -/
theorem parse_cssText_iff_apply_between {style : Style} : parse style.cssText = style ↔
    ∀ later, (KeyDelta.between style later).apply (parse style.cssText) = later := by
  constructor
  · intro same later
    rw [same, KeyDelta.apply_between]
  · intro merged
    have still := KeyDelta.isEmpty_between_iff.mpr (rfl : style = style)
    have unchanged := merged style
    rw [Std.ExtTreeMap.isEmpty_iff.mp still] at unchanged
    exact unchanged

end Style

namespace Wire.Encoder

variable (encoder : Encoder)

/-- Wherever an element is sent, its style goes with it as one text. -/
theorem encodeNode_style (depth : Nat) {tree : Tree SessionReplay.Node} {element : Element}
    (kind : tree.data.kind = .element element) (styled : "position" ∈ element.style) :
    ∃ attributes below,
      encoder.encodeNode depth tree =
        .element (.node tree.data.id) element.tag attributes below ∧
      attributes["style"]? = some element.style.cssText := by
  obtain ⟨node, children⟩ := tree
  have shape : node.kind = .element element := kind
  have given : ¬element.style.isEmpty = true := by
    intro empty
    rw [Std.ExtTreeMap.isEmpty_iff.mp empty] at styled
    exact Std.ExtTreeMap.not_mem_empty styled
  rw [encodeNode]
  simp only [shape]
  refine ⟨_, _, rfl, ?_⟩
  have written : (encoder.elementAttributes node.masked element)["style"]? =
      some element.style.cssText := by
    simp only [elementAttributes, if_neg given, Std.ExtTreeMap.getElem?_insert_self]
  rw [mark]
  split
  · rw [Std.ExtTreeMap.getElem?_insert, if_neg (by decide), written]
  · exact written

end Wire.Encoder

namespace Capture

/-- A player that reads the style of a captured element in its text, and merges the changes that
are sent later, has the style of the element if and only if the family of its text is legible. -/
theorem style_read_back_iff (settings : Settings) (source : View.Introspector)
    (registry : Identity.Registry) (root : ViewHandle) (tick : UInt64) (encoder : Wire.Encoder)
    (depth : Nat) {part : Tree Node} {element : Element}
    (inside : Tree.Inside part (capture settings source registry root tick).tree)
    (kind : part.data.kind = .element element) :
    ∃ attributes below,
      encoder.encodeNode depth part =
        .element (.node part.data.id) element.tag attributes below ∧
      attributes["style"]? = some element.style.cssText ∧
      (Style.parse element.style.cssText = element.style ↔
        source.SetsLegibly root element.style) ∧
      ((∀ later, (KeyDelta.between element.style later).apply
          (Style.parse element.style.cssText) = later) ↔
        source.SetsLegibly root element.style) := by
  have dressed : part.data.toFace.Dressed fun family =>
      ∃ view, source.Reaches root view ∧ source.family? view = some family := by
    apply dressed_capture _ part.data inside.data_mem
    intro view reached family shown
    exact ⟨view, reached, shown⟩
  have legible : Style.parse element.style.cssText = element.style ↔
      source.SetsLegibly root element.style := by
    rw [Style.parse_cssText_iff, dressed.legible_iff kind]
    constructor
    · intro all view reached family shown
      exact all family ⟨view, reached, shown⟩
    · rintro all family ⟨view, reached, shown⟩
      exact all view reached family shown
  obtain ⟨attributes, below, sent, text⟩ :=
    encoder.encodeNode_style depth kind (dressed.position_mem kind)
  refine ⟨attributes, below, sent, text, legible, ?_⟩
  rw [← Style.parse_cssText_iff_apply_between]
  exact legible

/-- With a second declaration in its family, a field is not read back. -/
theorem style_read_back_iff_field : ∃ (part : Tree Node) (element : Element),
    Tree.Inside part (capture ({} : Session.Config).settings
      (Session.fieldHost (some "Inter; font-size: 40px")) .new ⟨1⟩ 1).tree ∧
    part.data.kind = .element element ∧
    Style.parse element.style.cssText ≠ element.style := by
  obtain ⟨top, field, element, whole, -, -, -, kind, -, set⟩ :=
    Session.census_field (some "Inter; font-size: 40px") .new ⟨1⟩
  have inside : Tree.Inside (.node field.node []) (capture ({} : Session.Config).settings
      (Session.fieldHost (some "Inter; font-size: 40px")) .new ⟨1⟩ 1).tree := by
    rw [← map_node_census, whole]
    exact .inner List.mem_cons_self (.itself _)
  refine ⟨_, element, inside, kind, ?_⟩
  obtain ⟨-, -, -, -, readBack, -⟩ := style_read_back_iff ({} : Session.Config).settings
    (Session.fieldHost (some "Inter; font-size: 40px")) .new ⟨1⟩ 1 {} 1 inside kind
  rw [Ne, readBack]
  intro legible
  have family := legible ⟨1⟩ ⟨[], rfl⟩ _ rfl (set _ rfl)
  exact absurd family (by decide)

end Capture

end SessionReplay
