import SessionReplay.KeyDelta
import SessionReplay.Text.Blank
import SessionReplay.Text.Cut

/-!
Inline styles: the properties of a style, and the text that declares them. Reading is lenient. A
declaration without a colon, without a name or without a value is passed over, names are taken in
lower case, and the last declaration of a name counts.
-/

namespace SessionReplay

abbrev Style := Properties

namespace Style

/-- Lower case for the ASCII letters alone. -/
def lowerName (name : List Char) : String := String.ofList (name.map Char.toLower)

def declaration? (text : List Char) : Option (String × String) :=
  match Text.cut ':' text with
  | none => none
  | some (before, after) =>
      let name := Text.trim before
      let value := Text.trim after
      if name.isEmpty || value.isEmpty then none
      else some (lowerName name, String.ofList value)

def parse (text : String) : Style :=
  Std.ExtTreeMap.ofList ((Text.pieces ';' text.toList).filterMap declaration?)

def declarationText (entry : String × String) : List Char :=
  entry.1.toList ++ ':' :: ' ' :: (entry.2.toList ++ [';'])

/-- The declarations in the order of their names, with a space between them. -/
def cssText (style : Style) : String :=
  String.ofList (List.intercalate [' '] (style.toList.map declarationText))

end Style

end SessionReplay
