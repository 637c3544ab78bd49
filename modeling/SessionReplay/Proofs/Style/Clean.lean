import SessionReplay.Proofs.Style.Reading

/-!
Which styles reading can yield, said of the characters of their names and values. They are those
that are read back from their own text.
-/

namespace SessionReplay

theorem Text.trim_eq_self_iff {text : List Char} : trim text = text ↔
    (∀ char ∈ text.head?, isBlank char = false) ∧
      ∀ char ∈ text.getLast?, isBlank char = false := by
  constructor
  · intro same
    rw [← same]
    exact edges_trim text
  · rintro ⟨first, last⟩
    exact trim_eq_self first last

namespace Style

open Text (isBlank trim)

structure CleanValue (value : String) : Prop where
  nonempty : value ≠ ""
  first : ∀ char ∈ value.toList.head?, isBlank char = false
  last : ∀ char ∈ value.toList.getLast?, isBlank char = false
  whole : ';' ∉ value.toList

structure CleanName (name : String) : Prop extends CleanValue name where
  apart : ':' ∉ name.toList
  lower : ∀ char ∈ name.toList, char.isUpper = false

def Clean (style : Style) : Prop :=
  ∀ name value, style[name]? = some value → CleanName name ∧ CleanValue value

/-- The characters that stay as they are in lower case. -/
theorem toLower_eq_self_iff {char : Char} : char.toLower = char ↔ char.isUpper = false := by
  have outside : char.isUpper = false ↔ ¬(char.val ≥ 'A'.val ∧ char.val ≤ 'Z'.val) :=
    decide_eq_false_iff_not
  rw [outside]
  unfold Char.toLower
  split
  case isTrue upper =>
    refine iff_of_false ?_ (not_not_intro upper)
    intro same
    have values := congrArg Char.val same
    change char.val + 32 = char.val at values
    simp at values
  case isFalse other => exact iff_of_true rfl other

theorem lowerName_eq_self_iff {name : String} :
    lowerName name.toList = name ↔ ∀ char ∈ name.toList, char.isUpper = false := by
  rw [lowerName, ← String.toList_inj, String.toList_ofList]
  have each : name.toList.map Char.toLower = name.toList ↔
      ∀ char ∈ name.toList, char.toLower = char := by
    conv_lhs => rhs; rw [← List.map_id name.toList]
    exact List.map_inj_left
  exact each.trans (forall₂_congr fun char _ => toLower_eq_self_iff)

theorem legibleValue_iff {value : String} : LegibleValue value ↔ CleanValue value := by
  have given : value.toList ≠ [] ↔ value ≠ "" := String.toList_eq_nil_iff.not
  constructor
  · rintro ⟨nonempty, whole, trimmed⟩
    obtain ⟨first, last⟩ := Text.trim_eq_self_iff.mp trimmed
    exact ⟨given.mp nonempty, first, last, whole⟩
  · rintro ⟨nonempty, first, last, whole⟩
    exact ⟨given.mpr nonempty, whole, Text.trim_eq_self_iff.mpr ⟨first, last⟩⟩

theorem legibleName_iff {name : String} : LegibleName name ↔ CleanName name := by
  constructor
  · rintro ⟨value, apart, lower⟩
    exact ⟨legibleValue_iff.mp value, apart, lowerName_eq_self_iff.mp lower⟩
  · rintro ⟨value, apart, lower⟩
    exact ⟨legibleValue_iff.mpr value, apart, lowerName_eq_self_iff.mpr lower⟩

theorem legible_iff_clean {style : Style} : Legible style ↔ Clean style := by
  simp only [Legible, Clean, legibleName_iff, legibleValue_iff]

/-- The styles that are read back from their own text are the clean ones, and these are all that
reading ever yields. -/
theorem parse_cssText_iff_clean :
    (∀ style : Style, parse style.cssText = style ↔ Clean style) ∧
    (∀ style : Style, Clean style ↔ ∃ text, parse text = style) ∧
    ∀ text, Clean (parse text) ∧ parse (parse text).cssText = parse text := by
  have readBack : ∀ style : Style, parse style.cssText = style ↔ Clean style :=
    fun style => parse_cssText_iff.trans legible_iff_clean
  have read : ∀ text, Clean (parse text) := fun text => legible_iff_clean.mp (legible_parse text)
  refine ⟨readBack, ?_, fun text => ⟨read text, (readBack _).mpr (read text)⟩⟩
  intro style
  constructor
  · intro clean
    exact ⟨style.cssText, (readBack style).mpr clean⟩
  · rintro ⟨text, rfl⟩
    exact read text

end Style

end SessionReplay
