import Mathlib.Data.List.Basic
import SessionReplay.Json

/-!
How JSON is spelled. The compact text of a value tells it from every other value, whatever comes
after it: a string ends at the first quote that is not escaped, an integer at the first character
that is no digit, and the first character of a text tells what kind of value it is. This leaves out
fractions, of which several have the same text.
-/

namespace SessionReplay

theorem eq_of_append_eq_of_span {α : Type} {test : α → Bool} {first second after later : List α}
    (all : ∀ item ∈ first, test item = true) (allSecond : ∀ item ∈ second, test item = true)
    (ends : ∀ item ∈ after.head?, test item = false)
    (endsLater : ∀ item ∈ later.head?, test item = false)
    (same : first ++ after = second ++ later) : first = second ∧ after = later := by
  have none : ∀ rest : List α, (∀ item ∈ rest.head?, test item = false) →
      rest.takeWhile test = [] := by
    intro rest stops
    cases rest with
    | nil => rfl
    | cons item rest => simp [stops item rfl]
  have fronts := congrArg (List.takeWhile test) same
  rw [List.takeWhile_append_of_pos all, List.takeWhile_append_of_pos allSecond, none after ends,
    none later endsLater, List.append_nil, List.append_nil] at fronts
  rw [fronts] at same
  exact ⟨fronts, List.append_cancel_left same⟩

namespace Json

section Strings

/-- The characters that do not stand for themselves. -/
def escapedChars : List Char := '"' :: '\\' :: (List.range 0x20).map Char.ofNat

theorem escape_cases (char : Char) :
    (escape char = [char] ∧ char ≠ '"' ∧ char ≠ '\\') ∨
      (char ∈ escapedChars ∧ (escape char).head? = some '\\') := by
  unfold escape
  split
  case h_8 quote backslash _ _ _ _ _ =>
    split
    case isTrue low =>
      right
      refine ⟨?_, rfl⟩
      have listed := List.mem_map_of_mem (f := Char.ofNat) (List.mem_range.mpr low)
      rw [Char.ofNat_toNat] at listed
      exact List.mem_cons_of_mem _ (List.mem_cons_of_mem _ listed)
    case isFalse => exact .inl ⟨rfl, quote, backslash⟩
  all_goals exact .inr ⟨by decide, rfl⟩

theorem eq_of_escape_begins {first second : Char} (front : escape first <+: escape second) :
    first = second := by
  obtain ⟨rest, whole⟩ := front
  have heads := congrArg List.head? whole
  rcases escape_cases first with ⟨plain, -, apart⟩ | ⟨listed, opening⟩
  · rcases escape_cases second with ⟨otherPlain, -, -⟩ | ⟨-, otherOpening⟩
    · rw [plain, otherPlain] at heads
      exact Option.some.inj heads
    · rw [plain, otherOpening] at heads
      exact absurd (Option.some.inj heads) apart
  · rcases escape_cases second with ⟨otherPlain, -, otherApart⟩ | ⟨otherListed, -⟩
    · rw [List.head?_append, opening, otherPlain] at heads
      exact absurd (Option.some.inj heads).symm otherApart
    · have table : (escapedChars.all fun char => escapedChars.all fun other =>
          !(escape char).isPrefixOf (escape other) || char == other) = true := by
        decide +kernel
      have entry := List.all_eq_true.mp (List.all_eq_true.mp table first listed) second otherListed
      have begins : (escape first).isPrefixOf (escape second) = true :=
        List.isPrefixOf_iff_prefix.mpr ⟨rest, whole⟩
      rw [begins] at entry
      exact eq_of_beq entry

theorem eq_of_escape_append {first second : Char} {after later : List Char}
    (same : escape first ++ after = escape second ++ later) : first = second ∧ after = later := by
  have front : escape first <+: escape second ++ later := by
    rw [← same]
    exact List.prefix_append _ _
  have chars : first = second := by
    rcases List.prefix_or_prefix_of_prefix front (List.prefix_append _ _) with shorter | longer
    · exact eq_of_escape_begins shorter
    · exact (eq_of_escape_begins longer).symm
  rw [chars] at same
  exact ⟨chars, List.append_cancel_left same⟩

theorem escape_ne_quote (char : Char) (after later : List Char) :
    '"' :: after ≠ escape char ++ later := by
  intro same
  have heads := congrArg List.head? same
  rcases escape_cases char with ⟨plain, quote, -⟩ | ⟨-, opening⟩
  · rw [plain] at heads
    exact quote (Option.some.inj heads).symm
  · rw [List.head?_append, opening] at heads
    exact absurd (Option.some.inj heads) (by decide)

/-- No text can go on past its closing quote. -/
theorem eq_of_quoted {first second : String} {after later : List Char}
    (same : quoted first after = quoted second later) : first = second ∧ after = later := by
  have chars : ∀ texts others : List Char,
      texts.flatMap escape ++ '"' :: after = others.flatMap escape ++ '"' :: later →
        texts = others ∧ after = later := by
    intro texts
    induction texts with
    | nil =>
        intro others same
        cases others with
        | nil => exact ⟨rfl, (List.cons.inj same).2⟩
        | cons char others =>
            rw [List.flatMap_cons, List.append_assoc] at same
            exact absurd same (escape_ne_quote char _ _)
    | cons char texts induction =>
        intro others same
        rw [List.flatMap_cons, List.append_assoc] at same
        cases others with
        | nil => exact absurd same.symm (escape_ne_quote char _ _)
        | cons other others =>
            rw [List.flatMap_cons, List.append_assoc] at same
            obtain ⟨rfl, rest⟩ := eq_of_escape_append same
            obtain ⟨rfl, afters⟩ := induction others rest
            exact ⟨rfl, afters⟩
  obtain ⟨texts, afters⟩ := chars _ _ (List.cons.inj same).2
  exact ⟨String.toList_inj.mp texts, afters⟩

end Strings

section Integers

/-- Nothing that a number could go on with. -/
def Ends (after : List Char) : Prop := ∀ char ∈ after.head?, char.isDigit = false

theorem isDigit_digitsOf (number : Nat) : ∀ char ∈ Decimal.digitsOf number, char.isDigit = true :=
  fun _ member => Nat.isDigit_of_mem_toDigits (by decide) (by decide) member

theorem eq_of_digitsOf {first second : Nat} {after later : List Char} (ends : Ends after)
    (endsLater : Ends later)
    (same : Decimal.digitsOf first ++ after = Decimal.digitsOf second ++ later) :
    first = second ∧ after = later := by
  obtain ⟨digits, afters⟩ := eq_of_append_eq_of_span (isDigit_digitsOf first)
    (isDigit_digitsOf second) ends endsLater same
  have numbers := congrArg (Nat.ofDigitChars 10 · 0) digits
  simp only [Decimal.digitsOf, Nat.ofDigitChars_ten_toDigits] at numbers
  exact ⟨numbers, afters⟩

theorem digitsOf_ne_minus (number : Nat) (after later : List Char) :
    '-' :: after ≠ Decimal.digitsOf number ++ later := by
  intro same
  cases digits : Decimal.digitsOf number with
  | nil => exact Nat.toDigits_ne_nil digits
  | cons char rest =>
      rw [digits] at same
      have first : char.isDigit = true := by
        apply isDigit_digitsOf number
        rw [digits]
        exact List.mem_cons_self
      rw [← (List.cons.inj same).1] at first
      contradiction

theorem eq_of_integerText {first second : Int} {after later : List Char} (ends : Ends after)
    (endsLater : Ends later) (same : integerText first ++ after = integerText second ++ later) :
    first = second ∧ after = later := by
  unfold integerText at same
  split at same
  case isTrue negative =>
    split at same
    case isTrue otherNegative =>
      obtain ⟨sizes, afters⟩ := eq_of_digitsOf ends endsLater (List.cons.inj same).2
      exact ⟨by omega, afters⟩
    case isFalse => exact absurd same (digitsOf_ne_minus _ _ _)
  case isFalse positive =>
    split at same
    case isTrue => exact absurd same.symm (digitsOf_ne_minus _ _ _)
    case isFalse otherPositive =>
      obtain ⟨sizes, afters⟩ := eq_of_digitsOf ends endsLater same
      exact ⟨by omega, afters⟩

end Integers

section Values

/-- The compact texts of two values tell them apart, whatever comes after them. -/
def Apart (first second : Json) : Prop :=
  ∀ (depth level : Nat) (after later : List Char), Ends after → Ends later →
    write false depth first after = write false level second later →
    first = second ∧ after = later

theorem Apart.symm {first second : Json} (apart : Apart first second) : Apart second first := by
  intro depth level after later ends endsLater same
  obtain ⟨values, afters⟩ := apart level depth later after endsLater ends same.symm
  exact ⟨values.symm, afters.symm⟩

/-- Without fractions. -/
inductive Exact : Json → Prop
  | null : Exact null
  | bool (value : Bool) : Exact (bool value)
  | integer (value : Int) : Exact (integer value)
  | string (value : String) : Exact (string value)
  | array {items : List Json} (each : ∀ item ∈ items, Exact item) : Exact (array items)
  | object {members : List (String × Json)} (each : ∀ member ∈ members, Exact member.2) :
      Exact (object members)

theorem ends_cons {char : Char} (other : char.isDigit = false) (after : List Char) :
    Ends (char :: after) := by
  intro first same
  rw [← Option.some.inj same]
  exact other

theorem apart_null : Apart null null := by
  intro depth level after later _ _ same
  rw [write, write] at same
  exact ⟨rfl, by simpa using same⟩

/-- A fraction is told apart from itself alone. -/
theorem apart_number (value : Float) : Apart (number value) (number value) := by
  intro depth level after later _ _ same
  rw [write, write] at same
  exact ⟨rfl, List.append_cancel_left same⟩

theorem apart_bool (first second : Bool) : Apart (bool first) (bool second) := by
  intro depth level after later _ _ same
  rw [write, write] at same
  cases first <;> cases second <;> simp_all [boolText]

theorem apart_integer (first second : Int) : Apart (integer first) (integer second) := by
  intro depth level after later ends endsLater same
  rw [write, write] at same
  obtain ⟨values, afters⟩ := eq_of_integerText ends endsLater same
  exact ⟨congrArg integer values, afters⟩

theorem apart_string (first second : String) : Apart (string first) (string second) := by
  intro depth level after later _ _ same
  rw [write, write] at same
  obtain ⟨values, afters⟩ := eq_of_quoted same
  exact ⟨congrArg string values, afters⟩

/-- The kind of value that begins with a character. -/
def kindOf (char : Char) : Nat :=
  if char = '-' || char.isDigit then (integer 0).ctorIdx
  else match char with
    | 'n' => null.ctorIdx
    | 't' | 'f' => (bool true).ctorIdx
    | '"' => (string "").ctorIdx
    | '[' => (array []).ctorIdx
    | '\x7b' => (object []).ctorIdx
    | _ => 7

theorem kindOf_integerText (value : Int) (after : List Char) :
    (integerText value ++ after).head?.map kindOf = some (integer value).ctorIdx := by
  unfold integerText
  split
  · rfl
  · cases digits : Decimal.digitsOf value.natAbs with
    | nil => exact absurd digits Nat.toDigits_ne_nil
    | cons char rest =>
        have first : char.isDigit = true := by
          apply isDigit_digitsOf value.natAbs
          rw [digits]
          exact List.mem_cons_self
        simp [kindOf, first]
        rfl

theorem kindOf_write {value : Json} (exact : Exact value) (depth : Nat) (after : List Char) :
    (write false depth value after).head?.map kindOf = some value.ctorIdx := by
  cases exact with
  | null => rfl
  | bool value => cases value <;> rfl
  | integer value =>
      rw [write]
      exact kindOf_integerText value after
  | string value => rfl
  | @array items each => cases items <;> rfl
  | @object members each => cases members <;> rfl

/-- Values of different kinds begin differently. -/
theorem apart_of_kind {first second : Json} (exact : Exact first) (exactSecond : Exact second)
    (alike : first.ctorIdx = second.ctorIdx → Apart first second) : Apart first second := by
  intro depth level after later ends endsLater same
  have kinds := kindOf_write exact depth after
  rw [same, kindOf_write exactSecond level later] at kinds
  exact alike (Option.some.inj kinds).symm depth level after later ends endsLater same

theorem ends_writeItems (depth : Nat) (items : List Json) (after : List Char) :
    Ends (writeItems false depth items (']' :: after)) := by
  cases items with
  | nil => exact ends_cons (by decide) after
  | cons item items =>
      rw [writeItems]
      exact ends_cons (by decide) _

theorem ends_writeMembers (depth : Nat) (members : List (String × Json)) (after : List Char) :
    Ends (writeMembers false depth members ('\x7d' :: after)) := by
  cases members with
  | nil => exact ends_cons (by decide) after
  | cons member members =>
      rw [writeMembers]
      exact ends_cons (by decide) _

theorem eq_of_writeItems {items others : List Json}
    (apart : ∀ item ∈ items, ∀ other ∈ others, Apart item other) {depth level : Nat}
    {after later : List Char}
    (same : writeItems false depth items (']' :: after) =
      writeItems false level others (']' :: later)) : items = others ∧ after = later := by
  induction items generalizing others with
  | nil =>
      cases others with
      | nil => exact ⟨rfl, (List.cons.inj same).2⟩
      | cons other others => exact absurd (List.cons.inj same).1 (by decide)
  | cons item items induction =>
      cases others with
      | nil => exact absurd (List.cons.inj same).1 (by decide)
      | cons other others =>
          rw [writeItems, writeItems] at same
          obtain ⟨rfl, rest⟩ := apart item List.mem_cons_self other List.mem_cons_self _ _ _ _
            (ends_writeItems _ _ _) (ends_writeItems _ _ _) (List.cons.inj same).2
          obtain ⟨rfl, afters⟩ := induction (fun item member other listed =>
            apart item (List.mem_cons_of_mem _ member) other (List.mem_cons_of_mem _ listed)) rest
          exact ⟨rfl, afters⟩

theorem eq_of_writeMembers {members others : List (String × Json)}
    (apart : ∀ member ∈ members, ∀ other ∈ others, member.1 = other.1 →
      Apart member.2 other.2) {depth level : Nat} {after later : List Char}
    (same : writeMembers false depth members ('\x7d' :: after) =
      writeMembers false level others ('\x7d' :: later)) : members = others ∧ after = later := by
  induction members generalizing others with
  | nil =>
      cases others with
      | nil => exact ⟨rfl, (List.cons.inj same).2⟩
      | cons other others => exact absurd (List.cons.inj same).1 (by decide)
  | cons member members induction =>
      cases others with
      | nil => exact absurd (List.cons.inj same).1 (by decide)
      | cons other others =>
          obtain ⟨name, value⟩ := member
          obtain ⟨otherName, otherValue⟩ := other
          rw [writeMembers, writeMembers] at same
          obtain ⟨rfl, values⟩ := eq_of_quoted (List.cons.inj same).2
          obtain ⟨alike : value = otherValue, rest⟩ := apart _ List.mem_cons_self _ List.mem_cons_self rfl _ _ _ _
            (ends_writeMembers _ _ _) (ends_writeMembers _ _ _) (List.cons.inj values).2
          obtain ⟨rfl, afters⟩ := induction (fun member inside other listed =>
            apart member (List.mem_cons_of_mem _ inside) other (List.mem_cons_of_mem _ listed)) rest
          exact ⟨by rw [alike], afters⟩

/-- Objects are told apart when members of one name are. -/
theorem apart_object {members others : List (String × Json)}
    (apart : ∀ member ∈ members, ∀ other ∈ others, member.1 = other.1 →
      Apart member.2 other.2) : Apart (object members) (object others) := by
  intro depth level after later _ _ same
  cases members with
  | nil =>
      cases others with
      | nil =>
          rw [write, write] at same
          exact ⟨rfl, by simpa using same⟩
      | cons other others =>
          rw [write, write] at same
          exact absurd (List.cons.inj (List.cons.inj same).2).1 (by decide)
  | cons member members =>
      cases others with
      | nil =>
          rw [write, write] at same
          exact absurd (List.cons.inj (List.cons.inj same).2).1 (by decide)
      | cons other others =>
          -- After a comma, both texts are those of members after the first.
          rw [write, write] at same
          have listed : writeMembers false (depth + 1) (member :: members) ('\x7d' :: after) =
              writeMembers false (level + 1) (other :: others) ('\x7d' :: later) := by
            rw [writeMembers, writeMembers]
            exact congrArg (List.cons ',') (List.cons.inj same).2
          obtain ⟨whole, afters⟩ := eq_of_writeMembers apart listed
          exact ⟨congrArg object whole, afters⟩

/-- An item does not begin with the end of the array. -/
theorem bracket_ne_write {item : Json} (exact : Exact item) (depth : Nat)
    (after rest : List Char) : ']' :: rest ≠ write false depth item after := by
  intro same
  have kind := kindOf_write exact depth after
  have none : kindOf ']' = 7 := by decide
  rw [← same, List.head?_cons, Option.map_some, none] at kind
  cases exact <;> cases Option.some.inj kind

theorem apart_array {items others : List Json} (exact : ∀ item ∈ items, Exact item)
    (exactOthers : ∀ other ∈ others, Exact other)
    (apart : ∀ item ∈ items, ∀ other ∈ others, Apart item other) :
    Apart (array items) (array others) := by
  intro depth level after later _ _ same
  cases items with
  | nil =>
      cases others with
      | nil =>
          rw [write, write] at same
          exact ⟨rfl, by simpa using same⟩
      | cons other others =>
          rw [write, write] at same
          exact absurd (List.cons.inj same).2
            (bracket_ne_write (exactOthers other List.mem_cons_self) _ _ _)
  | cons item items =>
      cases others with
      | nil =>
          rw [write, write] at same
          exact absurd (List.cons.inj same).2.symm
            (bracket_ne_write (exact item List.mem_cons_self) _ _ _)
      | cons other others =>
          rw [write, write] at same
          have listed : writeItems false (depth + 1) (item :: items) (']' :: after) =
              writeItems false (level + 1) (other :: others) (']' :: later) := by
            rw [writeItems, writeItems]
            exact congrArg (List.cons ',') (List.cons.inj same).2
          obtain ⟨whole, afters⟩ := eq_of_writeItems apart listed
          exact ⟨congrArg array whole, afters⟩

/-- Without fractions, a value can be told from its compact text. -/
theorem Exact.apart {first second : Json} (exact : Exact first) (exactSecond : Exact second) :
    Apart first second := by
  induction exact generalizing second with
  | null =>
      apply apart_of_kind .null exactSecond
      intro kinds
      cases exactSecond with
      | null => exact apart_null
      | _ => cases kinds
  | bool value =>
      apply apart_of_kind (.bool value) exactSecond
      intro kinds
      cases exactSecond with
      | bool other => exact apart_bool value other
      | _ => cases kinds
  | integer value =>
      apply apart_of_kind (.integer value) exactSecond
      intro kinds
      cases exactSecond with
      | integer other => exact apart_integer value other
      | _ => cases kinds
  | string value =>
      apply apart_of_kind (.string value) exactSecond
      intro kinds
      cases exactSecond with
      | string other => exact apart_string value other
      | _ => cases kinds
  | array each induction =>
      apply apart_of_kind (.array each) exactSecond
      intro kinds
      cases exactSecond with
      | array eachOther =>
          apply apart_array each eachOther
          intro item member other listed
          exact induction item member (eachOther other listed)
      | _ => cases kinds
  | object each induction =>
      apply apart_of_kind (.object each) exactSecond
      intro kinds
      cases exactSecond with
      | object eachOther =>
          apply apart_object
          intro member inside other listed _
          exact induction member inside (eachOther other listed)
      | _ => cases kinds

theorem Apart.eq {first second : Json} (apart : Apart first second)
    (same : first.compact = second.compact) : first = second := by
  have ends : Ends [] := nofun
  exact (apart 0 0 [] [] ends ends (String.ofList_injective same)).1

end Values

end Json

end SessionReplay
