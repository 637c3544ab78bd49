import SessionReplay.Style.Basic
import Mathlib.Data.List.Basic

/-!
Reading inline styles back. A style survives being written and read when its names and values do
not contain what ends them and have no white space around them, and reading never yields any other
style.
-/

namespace SessionReplay

namespace Text

theorem pieces_append {separator : Char} {front : List Char} (whole : separator ∉ front)
    (rest : List Char) :
    pieces separator (front ++ separator :: rest) = front :: pieces separator rest := by
  induction front with
  | nil => simp [pieces]
  | cons char front induction =>
      simp only [List.mem_cons, not_or] at whole
      rw [List.cons_append, pieces, if_neg (Ne.symm whole.1), induction whole.2]

theorem not_mem_pieces {separator : Char} {text piece : List Char}
    (member : piece ∈ pieces separator text) : separator ∉ piece ∧ piece ⊆ text := by
  induction text generalizing piece with
  | nil =>
      rw [List.mem_singleton.mp member]
      exact ⟨List.not_mem_nil, List.nil_subset _⟩
  | cons char rest induction =>
      rw [pieces] at member
      split at member
      case isTrue =>
        rcases List.mem_cons.mp member with rfl | later
        · exact ⟨List.not_mem_nil, List.nil_subset _⟩
        · have known := induction later
          exact ⟨known.1, List.subset_cons_of_subset _ known.2⟩
      case isFalse other =>
        split at member
        case h_1 none =>
          have counted := pieces_length separator rest
          rw [none] at counted
          contradiction
        case h_2 first others cut =>
          rw [cut] at induction
          rcases List.mem_cons.mp member with rfl | later
          · have known := induction List.mem_cons_self
            refine ⟨?_, List.cons_subset_cons _ known.2⟩
            intro inside
            rcases List.mem_cons.mp inside with same | below
            · exact other same.symm
            · exact known.1 below
          · have known := induction (List.mem_cons_of_mem _ later)
            exact ⟨known.1, List.subset_cons_of_subset _ known.2⟩

theorem cut_append {separator : Char} {before : List Char} (whole : separator ∉ before)
    (after : List Char) : cut separator (before ++ separator :: after) = some (before, after) := by
  induction before with
  | nil => simp [cut]
  | cons char before induction =>
      simp only [List.mem_cons, not_or] at whole
      rw [List.cons_append, cut, if_neg (Ne.symm whole.1), induction whole.2]
      rfl

theorem trim_eq_self {text : List Char} (first : ∀ char ∈ text.head?, isBlank char = false)
    (last : ∀ char ∈ text.getLast?, isBlank char = false) : trim text = text := by
  have front : text.dropWhile isBlank = text := by
    cases text with
    | nil => rfl
    | cons char rest => rw [List.dropWhile_cons, first char rfl]; rfl
  have back : text.reverse.dropWhile isBlank = text.reverse := by
    rw [← List.head?_reverse] at last
    cases reversed : text.reverse with
    | nil => rfl
    | cons char rest =>
        rw [reversed] at last
        rw [List.dropWhile_cons, last char rfl]
        rfl
  rw [trim, front, back, List.reverse_reverse]

theorem trim_blank {char : Char} (blank : isBlank char = true) (text : List Char) :
    trim (char :: text) = trim text := by
  rw [trim, List.dropWhile_cons, if_pos blank, trim]

theorem trim_sublist (text : List Char) : (trim text).Sublist text := by
  have back := (List.dropWhile_sublist isBlank (l := (text.dropWhile isBlank).reverse)).reverse
  rw [List.reverse_reverse] at back
  exact back.trans (List.dropWhile_sublist isBlank)

/-- Nothing is left to trim. -/
theorem edges_trim (text : List Char) :
    (∀ char ∈ (trim text).head?, isBlank char = false) ∧
      ∀ char ∈ (trim text).getLast?, isBlank char = false := by
  have dropped : ∀ (list : List Char), ∀ char ∈ (list.dropWhile isBlank).head?,
      isBlank char = false := by
    intro list char first
    have found := List.head?_dropWhile_not isBlank list
    rw [Option.mem_def.mp first] at found
    simpa using found
  constructor
  · intro char first
    rw [trim, List.head?_reverse] at first
    have suffix := List.dropWhile_suffix isBlank (l := (text.dropWhile isBlank).reverse)
    have ends : ((text.dropWhile isBlank).reverse).getLast? = some char := by
      obtain ⟨front, whole⟩ := suffix
      rw [← whole, List.getLast?_append, Option.mem_def.mp first]
      rfl
    rw [List.getLast?_reverse] at ends
    exact dropped text char ends
  · intro char last
    rw [trim, List.getLast?_reverse] at last
    exact dropped _ char last

theorem trim_trim (text : List Char) : trim (trim text) = trim text :=
  trim_eq_self (edges_trim text).1 (edges_trim text).2

theorem trim_map {f : Char → Char} (same : ∀ char, isBlank (f char) = isBlank char)
    (text : List Char) : trim (text.map f) = (trim text).map f := by
  have composed : isBlank ∘ f = isBlank := funext same
  rw [trim, trim, List.dropWhile_map, composed, ← List.map_reverse, List.dropWhile_map, composed,
    List.map_reverse]

end Text

namespace Style

open Text (isBlank trim pieces)

/-- A text that is read back when it is written as the value of a declaration. -/
structure LegibleValue (text : String) : Prop where
  nonempty : text.toList ≠ []
  whole : ';' ∉ text.toList
  trimmed : trim text.toList = text.toList

structure LegibleName (name : String) : Prop extends LegibleValue name where
  apart : ':' ∉ name.toList
  lower : lowerName name.toList = name

instance (text : String) : Decidable (LegibleValue text) :=
  decidable_of_iff (text.toList ≠ [] ∧ ';' ∉ text.toList ∧ trim text.toList = text.toList)
    ⟨fun ⟨nonempty, whole, trimmed⟩ => ⟨nonempty, whole, trimmed⟩,
      fun ⟨nonempty, whole, trimmed⟩ => ⟨nonempty, whole, trimmed⟩⟩

instance (name : String) : Decidable (LegibleName name) :=
  decidable_of_iff (LegibleValue name ∧ ':' ∉ name.toList ∧ lowerName name.toList = name)
    ⟨fun ⟨value, apart, lower⟩ => ⟨value, apart, lower⟩,
      fun ⟨value, apart, lower⟩ => ⟨value, apart, lower⟩⟩

def Legible (style : Style) : Prop :=
  ∀ name value, style[name]? = some value → LegibleName name ∧ LegibleValue value

theorem toLower_cases (char : Char) : char.toLower = char ∨
    ((65 ≤ char.toNat ∧ char.toNat ≤ 90) ∧ 97 ≤ char.toLower.toNat ∧ char.toLower.toNat ≤ 122) := by
  unfold Char.toLower
  split
  case isTrue upper =>
    right
    have low : 65 ≤ char.toNat := upper.1
    have high : char.toNat ≤ 90 := upper.2
    constructor
    · exact ⟨low, high⟩
    · change 97 ≤ (char.val + 32).toNat ∧ (char.val + 32).toNat ≤ 122
      rw [UInt32.toNat_add, Char.toNat_val]
      change 97 ≤ (char.toNat + 32) % 2 ^ 32 ∧ (char.toNat + 32) % 2 ^ 32 ≤ 122
      omega
  case isFalse => exact .inl rfl

theorem isBlank_of_letter {char : Char} (low : 65 ≤ char.toNat) (high : char.toNat ≤ 122) :
    isBlank char = false := by
  simp [isBlank, Text.blankRanges]
  omega

theorem isBlank_toLower (char : Char) : isBlank char.toLower = isBlank char := by
  rcases toLower_cases char with same | ⟨⟨low, high⟩, lowerLow, lowerHigh⟩
  · rw [same]
  · rw [isBlank_of_letter low (by omega), isBlank_of_letter (by omega) lowerHigh]

theorem toLower_toLower (char : Char) : char.toLower.toLower = char.toLower := by
  rcases toLower_cases char.toLower with same | ⟨⟨-, high⟩, -⟩
  · exact same
  · rcases toLower_cases char with same | ⟨-, low, -⟩
    · rw [same, same]
    · omega

/-- The characters below the letters are their own lower case. -/
theorem eq_of_toLower {char sign : Char} (low : sign.toNat < 65) (same : char.toLower = sign) :
    char = sign := by
  rcases toLower_cases char with still | ⟨-, above, -⟩
  · rw [← still, same]
  · rw [same] at above
    omega

theorem legible_of_declaration? {text : List Char} {name value : String} (whole : ';' ∉ text)
    (declared : declaration? text = some (name, value)) :
    LegibleName name ∧ LegibleValue value := by
  unfold declaration? at declared
  split at declared
  case h_1 => contradiction
  case h_2 before after cut =>
    dsimp only at declared
    obtain ⟨split, apart⟩ := Text.cut_eq_some cut
    split at declared
    case isTrue => contradiction
    case isFalse given =>
      simp only [Bool.or_eq_true, List.isEmpty_iff, not_or] at given
      simp only [Option.some.injEq, Prod.mk.injEq] at declared
      obtain ⟨rfl, rfl⟩ := declared
      have nameInside := (Text.trim_sublist before).subset
      have valueInside := (Text.trim_sublist after).subset
      have beforeWhole : ';' ∉ before := by
        intro inside
        exact whole (split ▸ List.mem_append_left _ inside)
      have afterWhole : ';' ∉ after := by
        intro inside
        exact whole (split ▸ List.mem_append_right _ (List.mem_cons_of_mem _ inside))
      have absent : ∀ sign : Char, sign.toNat < 65 → sign ∉ before →
          sign ∉ (lowerName (trim before)).toList := by
        intro sign low outside inside
        rw [lowerName, String.toList_ofList] at inside
        obtain ⟨char, member, same⟩ := List.mem_map.mp inside
        rw [eq_of_toLower low same] at member
        exact outside (nameInside member)
      constructor
      · refine ⟨⟨?_, absent ';' (by decide) beforeWhole, ?_⟩, absent ':' (by decide) apart, ?_⟩
        · rw [lowerName, String.toList_ofList]
          simpa using given.1
        · rw [lowerName, String.toList_ofList, Text.trim_map isBlank_toLower, Text.trim_trim]
        · simp only [lowerName, String.toList_ofList, List.map_map]
          apply congrArg String.ofList
          apply List.map_congr_left
          intro char _
          exact toLower_toLower char
      · refine ⟨?_, ?_, ?_⟩
        · rw [String.toList_ofList]
          exact given.2
        · rw [String.toList_ofList]
          exact fun inside => afterWhole (valueInside inside)
        · rw [String.toList_ofList, Text.trim_trim]

theorem mem_of_getElem?_ofList {entries : List (String × String)} {name value : String}
    (found : (Std.ExtTreeMap.ofList entries : Style)[name]? = some value) :
    (name, value) ∈ entries := by
  rw [Std.ExtTreeMap.ofList_eq_insertMany_empty, Std.ExtTreeMap.getElem?_insertMany_list] at found
  rw [Std.ExtTreeMap.getElem?_empty, Option.or_none,
    List.findSomeRev?_eq_findSome?_reverse] at found
  obtain ⟨⟨other, text⟩, member, same⟩ := List.exists_of_findSome?_eq_some found
  dsimp only at same
  split at same
  case isTrue equal =>
    cases same
    cases Std.LawfulEqOrd.eq_of_compare equal
    exact List.mem_reverse.mp member
  case isFalse => contradiction

theorem legible_ofList {entries : List (String × String)}
    (legible : ∀ entry ∈ entries, LegibleName entry.1 ∧ LegibleValue entry.2) :
    Legible (Std.ExtTreeMap.ofList entries) := by
  intro name value found
  exact legible _ (mem_of_getElem?_ofList found)

theorem legible_empty : Legible ∅ := by
  intro name value found
  rw [Std.ExtTreeMap.getElem?_empty] at found
  contradiction

theorem Legible.extend {style more : Style} (legible : Legible style) (further : Legible more) :
    Legible (style.extend more) := by
  intro name value found
  rw [Properties.getElem?_extend, Option.or_eq_some_iff] at found
  rcases found with new | ⟨-, old⟩
  · exact further name value new
  · exact legible name value old

theorem legible_parse (text : String) : Legible (parse text) := by
  apply legible_ofList
  intro entry member
  obtain ⟨piece, inside, declared⟩ := List.mem_filterMap.mp member
  exact legible_of_declaration? (Text.not_mem_pieces inside).1 declared

/-- The declarations that are read in a text. -/
def declarations (text : List Char) : List (String × String) :=
  (pieces ';' text).filterMap declaration?

theorem declaration?_blank (text : List Char) : declaration? (' ' :: text) = declaration? text := by
  unfold declaration?
  rw [Text.cut, if_neg (by decide)]
  cases Text.cut ':' text with
  | none => rfl
  | some parts =>
      obtain ⟨before, after⟩ := parts
      have blank : isBlank ' ' = true := by decide
      simp only [Option.map_some, Text.trim_blank blank]

theorem declarations_blank (text : List Char) : declarations (' ' :: text) = declarations text := by
  rw [declarations, declarations, pieces, if_neg (by decide)]
  split
  case h_1 none =>
    have counted := Text.pieces_length ';' text
    rw [none] at counted
    contradiction
  case h_2 first others cut =>
    rw [cut, List.filterMap_cons, List.filterMap_cons, declaration?_blank]

theorem declarations_append {name value : String} (legibleName : LegibleName name)
    (legibleValue : LegibleValue value) (rest : List Char) :
    declarations (declarationText (name, value) ++ rest) = (name, value) :: declarations rest := by
  have shape : declarationText (name, value) ++ rest =
      (name.toList ++ ':' :: ' ' :: value.toList) ++ ';' :: rest := by
    simp [declarationText]
  have whole : ';' ∉ name.toList ++ ':' :: ' ' :: value.toList := by
    simp [legibleName.whole, legibleValue.whole]
  have declared :
      declaration? (name.toList ++ ':' :: ' ' :: value.toList) = some (name, value) := by
    simp only [declaration?, Text.cut_append legibleName.apart]
    rw [Text.trim_blank (by decide), legibleName.trimmed, legibleValue.trimmed]
    simp [legibleName.nonempty, legibleValue.nonempty, legibleName.lower]
  rw [declarations, shape, Text.pieces_append whole, List.filterMap_cons, declared]
  rfl

theorem declarations_written {entries : List (String × String)}
    (legible : ∀ entry ∈ entries, LegibleName entry.1 ∧ LegibleValue entry.2) :
    declarations (List.intercalate [' '] (entries.map declarationText)) = entries := by
  induction entries with
  | nil => rfl
  | cons entry entries induction =>
      obtain ⟨first, others⟩ := List.forall_mem_cons.mp legible
      cases entries with
      | nil =>
          have written := declarations_append first.1 first.2 []
          rw [List.append_nil] at written
          simp only [List.map_cons, List.map_nil, List.intercalate_singleton]
          exact written
      | cons next entries =>
          have written := declarations_append first.1 first.2
            (' ' :: List.intercalate [' '] ((next :: entries).map declarationText))
          rw [declarations_blank, induction others] at written
          simpa [List.intercalate] using written

/-- A legible style is read back from its text. -/
theorem parse_cssText {style : Style} (legible : Legible style) : parse style.cssText = style := by
  have entries : declarations style.cssText.toList = style.toList := by
    rw [cssText, String.toList_ofList]
    apply declarations_written
    intro entry member
    exact legible _ _ (Std.ExtTreeMap.mem_toList_iff_getElem?_eq_some.mp member)
  apply Std.ExtTreeMap.ext_getElem?
  intro name
  change (Std.ExtTreeMap.ofList (declarations style.cssText.toList))[name]? = _
  rw [entries]
  cases held : style[name]? with
  | some value =>
      exact Std.ExtTreeMap.getElem?_ofList_of_mem Std.ReflOrd.compare_self
        Std.ExtTreeMap.distinct_keys_toList
          (Std.ExtTreeMap.mem_toList_iff_getElem?_eq_some.mpr held)
  | none =>
      cases found : (Std.ExtTreeMap.ofList style.toList : Style)[name]? with
      | none => rfl
      | some value =>
          have listed := mem_of_getElem?_ofList found
          rw [Std.ExtTreeMap.mem_toList_iff_getElem?_eq_some.mp listed] at held
          contradiction

/-- The legible styles are those that are read back. -/
theorem parse_cssText_iff {style : Style} : parse style.cssText = style ↔ Legible style := by
  constructor
  · intro same
    rw [← same]
    exact legible_parse style.cssText
  · exact parse_cssText

theorem empty_extend (style : Style) : (∅ : Style).extend style = style := by
  apply Std.ExtTreeMap.ext_getElem?
  intro name
  rw [Properties.getElem?_extend]
  simp

end Style

end SessionReplay
