import SessionReplay.Decimal.Layout
import SessionReplay.KeyDelta
import SessionReplay.Text.Hex

/-!
JSON values and their text, in one piece or spread out over lines. The members of an object stand
in the order in which they are given.
-/

namespace SessionReplay

inductive Json where
  | null
  | bool (value : Bool)
  | integer (value : Int)
  | number (value : Float)
  | string (value : String)
  | array (items : List Json)
  | object (members : List (String × Json))
deriving Inhabited

namespace Json

/-- Only quotes, backslashes and control characters are escaped. -/
def escape (char : Char) : List Char :=
  match char with
  | '"' => ['\\', '"']
  | '\\' => ['\\', '\\']
  | '\x08' => ['\\', 'b']
  | '\x0c' => ['\\', 'f']
  | '\n' => ['\\', 'n']
  | '\r' => ['\\', 'r']
  | '\t' => ['\\', 't']
  | _ => if char.toNat < 0x20 then '\\' :: 'u' :: '0' :: '0' :: Text.hexPair char.toNat else [char]

/-- A text in quotes, in front of what comes after it. -/
def quoted (text : String) (after : List Char) : List Char :=
  '"' :: (text.toList.flatMap escape ++ '"' :: after)

def integerText (value : Int) : List Char :=
  if value < 0 then '-' :: Decimal.digitsOf value.natAbs else Decimal.digitsOf value.natAbs

def boolText : Bool → List Char
  | true => ['t', 'r', 'u', 'e']
  | false => ['f', 'a', 'l', 's', 'e']

/-- Where the text is spread out, a new line for an item at this depth. -/
def newLine (spread : Bool) (depth : Nat) (after : List Char) : List Char :=
  if spread then '\n' :: (List.replicate (2 * depth) ' ' ++ after) else after

def colon (spread : Bool) (after : List Char) : List Char :=
  ':' :: if spread then ' ' :: after else after

mutual

/-- The text of a value in front of what comes after it. Spread out, it has every item and member
on a line of its own, two blanks further in for each level; what is empty stays on its line. -/
def write (spread : Bool) (depth : Nat) : Json → (after : List Char) → List Char
  | null, after => 'n' :: 'u' :: 'l' :: 'l' :: after
  | bool value, after => boolText value ++ after
  | integer value, after => integerText value ++ after
  | number value, after => (Decimal.Layout.json.write value).toList ++ after
  | string value, after => quoted value after
  | array [], after => '[' :: ']' :: after
  | array (item :: items), after =>
      '[' :: newLine spread (depth + 1) (write spread (depth + 1) item
        (writeItems spread (depth + 1) items (newLine spread depth (']' :: after))))
  | object [], after => '\x7b' :: '\x7d' :: after
  | object ((name, value) :: members), after =>
      '\x7b' :: newLine spread (depth + 1) (quoted name (colon spread (write spread (depth + 1) value
        (writeMembers spread (depth + 1) members (newLine spread depth ('\x7d' :: after))))))

/-- The items after the first. -/
def writeItems (spread : Bool) (depth : Nat) : List Json → (after : List Char) → List Char
  | [], after => after
  | item :: items, after =>
      ',' :: newLine spread depth (write spread depth item (writeItems spread depth items after))

/-- The members after the first. -/
def writeMembers (spread : Bool) (depth : Nat) :
    List (String × Json) → (after : List Char) → List Char
  | [], after => after
  | (name, value) :: members, after =>
      ',' :: newLine spread depth (quoted name (colon spread (write spread depth value
        (writeMembers spread depth members after))))

end

def compact (json : Json) : String := String.ofList (json.write false 0 [])

def pretty (json : Json) : String := String.ofList (json.write true 0 [])

/-- A text, or `null` where there is none. -/
def stringOrNull : Option String → Json
  | some text => string text
  | none => null

def ofProperties (properties : Properties) : Json :=
  object (properties.toList.map fun (name, value) => (name, string value))

def ofDelta (delta : KeyDelta) : Json :=
  object (delta.toList.map fun (name, value) => (name, stringOrNull value))

end Json

end SessionReplay
