/-!
Cutting a text at a separator: `cut` at its first occurrence, `pieces` at every one.
-/

namespace SessionReplay.Text

/-- The parts before and after the first separator. -/
def cut (separator : Char) : List Char → Option (List Char × List Char)
  | [] => none
  | char :: rest =>
      if char = separator then some ([], rest)
      else (cut separator rest).map fun (before, after) => (char :: before, after)

/-- Always one piece more than there are separators. -/
def pieces (separator : Char) : List Char → List (List Char)
  | [] => [[]]
  | char :: rest =>
      if char = separator then [] :: pieces separator rest
      else match pieces separator rest with
        | [] => [[char]]
        | piece :: others => (char :: piece) :: others

theorem cut_eq_none {separator : Char} {text : List Char} :
    cut separator text = none ↔ separator ∉ text := by
  induction text with
  | nil => simp [cut]
  | cons char rest induction =>
      by_cases same : char = separator
      · simp [cut, same]
      · simp [cut, same, induction, Ne.symm same]

theorem cut_eq_some {separator : Char} {text before after : List Char}
    (found : cut separator text = some (before, after)) :
    text = before ++ separator :: after ∧ separator ∉ before := by
  induction text generalizing before after with
  | nil => simp [cut] at found
  | cons char rest induction =>
      by_cases same : char = separator
      · simp only [cut, same, if_true, Option.some.injEq, Prod.mk.injEq] at found
        obtain ⟨rfl, rfl⟩ := found
        simp [same]
      · simp only [cut, same, if_false, Option.map_eq_some_iff, Prod.exists, Prod.mk.injEq] at found
        obtain ⟨first, second, inner, rfl, rfl⟩ := found
        obtain ⟨split, absent⟩ := induction inner
        exact ⟨by simp [split], by simp [absent, Ne.symm same]⟩

theorem pieces_length (separator : Char) (text : List Char) :
    (pieces separator text).length = text.count separator + 1 := by
  induction text with
  | nil => rfl
  | cons char rest induction =>
      by_cases same : char = separator
      · simp [pieces, same, induction]
      · simp only [pieces, same, if_false]
        split <;> simp_all

end SessionReplay.Text
