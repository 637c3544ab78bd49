import SessionReplay.Proofs.Style.Reading
import SessionReplay.Style.Derived

/-!
The style that is derived from the look of a view is legible but for the family of its text, which
the view chooses freely.
-/

namespace SessionReplay

open SessionReplay.Text (isBlank trim)

/-- Free of white space and of the character that ends a declaration. -/
def Compact (text : List Char) : Prop := ∀ char ∈ text, char ≠ ';' ∧ isBlank char = false

instance (text : List Char) : Decidable (Compact text) :=
  List.decidableBAll (fun char => char ≠ ';' ∧ isBlank char = false) text

theorem compact_append {first second : List Char} :
    Compact (first ++ second) ↔ Compact first ∧ Compact second := by
  unfold Compact
  exact List.forall_mem_append

theorem compact_cons {char : Char} {rest : List Char} :
    Compact (char :: rest) ↔ (char ≠ ';' ∧ isBlank char = false) ∧ Compact rest := by
  unfold Compact
  exact List.forall_mem_cons

theorem compact_of_isDigit {text : List Char} (digits : ∀ char ∈ text, char.isDigit = true) :
    Compact text := by
  intro char member
  have digit := Char.isDigit_iff_toNat.mp (digits char member)
  have low : 48 ≤ char.toNat := digit.1
  have high : char.toNat ≤ 57 := digit.2
  constructor
  · rintro rfl
    contradiction
  · simp [isBlank, Text.blankRanges]
    omega

namespace Decimal

theorem compact_digitsOf (number : Nat) : Compact (digitsOf number) := by
  apply compact_of_isDigit
  intro char member
  exact Nat.isDigit_of_mem_toDigits (by decide) (by decide) member

theorem compact_positionalText (decimal : Decimal) :
    positionalText .plain decimal ≠ [] ∧ Compact (positionalText .plain decimal) := by
  have digits := compact_digitsOf decimal.digits
  have zeros : ∀ count, Compact (List.replicate count '0') := by
    intro count char member
    rw [List.eq_of_mem_replicate member]
    decide
  unfold positionalText
  dsimp only
  split
  case isTrue =>
    constructor
    · simp [digitsOf]
    · exact compact_append.mpr ⟨compact_append.mpr ⟨digits, zeros _⟩, nofun⟩
  case isFalse =>
    split
    case isTrue =>
      constructor
      · exact List.cons_ne_nil _ _
      · exact compact_cons.mpr ⟨by decide, compact_cons.mpr
          ⟨by decide, compact_append.mpr ⟨zeros _, digits⟩⟩⟩
    case isFalse =>
      constructor
      · simp
      · apply compact_append.mpr
        constructor
        · intro char member
          exact digits char (List.mem_of_mem_take member)
        · apply compact_cons.mpr
          constructor
          · decide
          · intro char member
            exact digits char (List.mem_of_mem_drop member)

theorem compact_write (number : Float) : (Layout.plain.write number).toList ≠ [] ∧
    Compact (Layout.plain.write number).toList := by
  have spelled : ∀ text ∈ ["NaN", "inf", "-inf"], text.toList ≠ [] ∧ Compact text.toList := by
    decide
  unfold Layout.write
  split
  · exact spelled _ (by decide)
  · split
    · split
      · exact spelled _ (by decide)
      · exact spelled _ (by decide)
    · dsimp only
      split
      · constructor
        · simp
        · rw [String.toList_ofList]
          apply compact_append.mpr
          constructor
          · split
            · decide
            · nofun
          · decide
      · have digits := compact_positionalText
          (shortest Layout.plain.tie (Binary.ofBits number.toBits))
        rw [String.toList_ofList]
        constructor
        · intro empty
          exact digits.1 (List.append_eq_nil_iff.mp empty).2
        · apply compact_append.mpr
          constructor
          · split
            · decide
            · nofun
          · exact digits.2

end Decimal

namespace Style

theorem legible_of_compact {text : String} (nonempty : text.toList ≠ [])
    (compact : Compact text.toList) : LegibleValue text where
  nonempty := nonempty
  whole inside := (compact ';' inside).1 rfl
  trimmed := Text.trim_eq_self (fun char first => (compact char (List.mem_of_mem_head? first)).2)
    (fun char last => (compact char (List.mem_of_mem_getLast? last)).2)

theorem legible_numberText (number : Float) : LegibleValue (numberText number) := by
  have written := Decimal.compact_write (hundredths number)
  exact legible_of_compact written.1 written.2

theorem compact_px (length : Float) : Compact (px length).toList := by
  rw [px, String.toList_append]
  apply compact_append.mpr
  constructor
  · exact (Decimal.compact_write (hundredths length)).2
  · decide

theorem legible_px (length : Float) : LegibleValue (px length) := by
  apply legible_of_compact
  · rw [px, String.toList_append]
    simp
  · exact compact_px length

theorem compact_channel (value : UInt8) : Compact (Color.channel value) := by
  have digits : ∀ number < 16, Nat.digitChar number ≠ ';' ∧
      isBlank (Nat.digitChar number) = false := by
    decide
  have bound : value.toNat < 256 := value.toNat_lt
  apply compact_cons.mpr
  constructor
  · exact digits _ (by omega)
  · apply compact_cons.mpr
    constructor
    · exact digits _ (by omega)
    · nofun

theorem legible_css (color : Color) : LegibleValue color.css := by
  apply legible_of_compact
  · simp [Color.css]
  · rw [Color.css, String.toList_ofList]
    apply compact_cons.mpr
    constructor
    · decide
    · have channels := compact_channel
      simp only [compact_append, channels, true_and]
      split
      · nofun
      · exact channels _

theorem legible_clipInset {frame clip : Rect} {text : String}
    (clipped : clipInset? frame clip = some text) : LegibleValue text := by
  unfold clipInset? at clipped
  dsimp only at clipped
  split at clipped
  case isTrue => contradiction
  case isFalse =>
    rw [← Option.some.inj clipped]
    have whole : ∀ length, ';' ∉ (px length).toList := by
      intro length inside
      exact (compact_px length ';' inside).1 rfl
    constructor
    · simp
    · simp [whole]
    · apply Text.trim_eq_self
      · simp
        decide
      · intro char last
        rw [String.toList_append, List.getLast?_append] at last
        cases last
        decide

/-- Entries that are read back. -/
def LegibleEntries (entries : List (String × String)) : Prop :=
  ∀ entry ∈ entries, LegibleName entry.1 ∧ LegibleValue entry.2

theorem legible_append {first second : List (String × String)} :
    LegibleEntries (first ++ second) ↔ LegibleEntries first ∧ LegibleEntries second := by
  unfold LegibleEntries
  exact List.forall_mem_append

theorem legible_cons {name value : String} {entries : List (String × String)} :
    LegibleEntries ((name, value) :: entries) ↔
      (LegibleName name ∧ LegibleValue value) ∧ LegibleEntries entries := by
  unfold LegibleEntries
  exact List.forall_mem_cons

theorem legible_optional {name : String} {value : Option String} (named : LegibleName name)
    (legible : ∀ text, value = some text → LegibleValue text) :
    LegibleEntries ( entry? name value) := by
  intro entry member
  obtain ⟨text, inside, rfl⟩ := List.mem_map.mp member
  exact ⟨named, legible text (Option.mem_toList.mp inside)⟩

theorem legible_placeEntries (frame : Rect) : LegibleEntries (placeEntries frame) := by
  unfold placeEntries
  simp only [legible_cons, legible_px, and_true]
  refine ⟨by decide, by decide, by decide, by decide, by decide, nofun⟩

theorem legible_paintEntries (paint : Paint) : LegibleEntries (paintEntries paint) := by
  have colors : ∀ (color : Option Color) text, color.map Color.css = some text →
      LegibleValue text := by
    intro color text written
    obtain ⟨shade, -, rfl⟩ := Option.map_eq_some_iff.mp written
    exact legible_css shade
  unfold paintEntries borderEntries opacityEntries
  simp only [legible_append]
  refine ⟨⟨⟨⟨?_, ?_⟩, ?_⟩, ?_⟩, ?_⟩
  · exact legible_optional (by decide) (colors _)
  · split
    · apply legible_append.mpr
      constructor
      · exact legible_optional (by decide) (colors _)
      · simp only [legible_cons, legible_px, and_true]
        exact ⟨by decide, by decide, nofun⟩
    · nofun
  · split
    · exact legible_cons.mpr ⟨⟨by decide, legible_px _⟩, nofun⟩
    · nofun
  · split
    · exact legible_cons.mpr ⟨⟨by decide, legible_numberText _⟩, nofun⟩
    · nofun
  · split
    · exact legible_cons.mpr ⟨by decide, nofun⟩
    · nofun

theorem legible_textEntries {typography : Typography}
    (legible : ∀ family, typography.family = some family → LegibleValue family) :
    LegibleEntries (textEntries typography) := by
  unfold textEntries
  simp only [legible_append]
  refine ⟨⟨⟨?_, ?_⟩, ?_⟩, ?_⟩
  · apply legible_optional (by decide)
    intro text written
    obtain ⟨shade, -, rfl⟩ := Option.map_eq_some_iff.mp written
    exact legible_css shade
  · split
    · exact legible_cons.mpr ⟨⟨by decide, legible_px _⟩, nofun⟩
    · nofun
  · exact legible_optional (by decide) legible
  · apply legible_optional (by decide)
    intro text keyword
    cases aligned : typography.align <;> rw [aligned] at keyword <;> cases keyword <;> decide

theorem legible_derived {typography : Option Typography}
    (legible : ∀ family, typography.bind Typography.family = some family → LegibleValue family)
    (frame clip : Rect) (paint : Paint) : Legible (derived frame clip paint typography) := by
  apply legible_ofList
  apply legible_append.mpr
  constructor
  · apply legible_append.mpr
    constructor
    · exact legible_append.mpr ⟨legible_placeEntries frame, legible_paintEntries paint⟩
    · exact legible_optional (by decide) fun text => legible_clipInset
  · intro entry member
    obtain ⟨setting, inside, listed⟩ := List.mem_flatMap.mp member
    rw [Option.mem_toList.mp inside] at legible
    exact legible_textEntries legible entry listed

/-- The family of a text is in its style, whatever it is. -/
theorem getElem?_derived_family (frame clip : Rect) (paint : Paint)
    {typography : Option Typography} {family : String}
    (set : typography.bind Typography.family = some family) :
    (derived frame clip paint typography)["font-family"]? = some family := by
  obtain ⟨setting, rfl, named⟩ := Option.bind_eq_some_iff.mp set
  obtain ⟨front, entries⟩ : ∃ front,
      placeEntries frame ++ paintEntries paint ++ entry? "clip-path" (clipInset? frame clip) ++
        (some setting).toList.flatMap textEntries =
      front ++ ("font-family", family) :: entry? "text-align" setting.align.keyword? := by
    refine ⟨placeEntries frame ++ paintEntries paint ++
      entry? "clip-path" (clipInset? frame clip) ++ entry? "color" (setting.color.map Color.css) ++
      if setting.size > 0 then [("font-size", px setting.size)] else [], ?_⟩
    simp [textEntries, entry?, named]
  rw [derived, entries, Std.ExtTreeMap.ofList_eq_insertMany_empty,
    Std.ExtTreeMap.getElem?_insertMany_list, List.findSomeRev?_eq_findSome?_reverse,
    List.reverse_append, List.reverse_cons]
  cases setting.align <;> simp [TextAlign.keyword?, entry?]

/-- An element always has a place. -/
theorem position_mem_derived (frame clip : Rect) (paint : Paint)
    (typography : Option Typography) : "position" ∈ derived frame clip paint typography := by
  rw [derived, Std.ExtTreeMap.mem_ofList]
  simp [placeEntries]

end Style

end SessionReplay
