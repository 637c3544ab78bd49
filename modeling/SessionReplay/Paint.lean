import SessionReplay.Text.Hex

/-!
How a view is painted, and how its text is set.
-/

namespace SessionReplay

structure Color where
  red : UInt8
  green : UInt8
  blue : UInt8
  alpha : UInt8
deriving DecidableEq, Inhabited, Repr

namespace Color

def opaqueAlpha : UInt8 := 255

def isTransparent (color : Color) : Bool := color.alpha = 0

def channel (value : UInt8) : List Char := Text.hexPair value.toNat

/-- Two hexadecimal digits a channel; alpha is left out when nothing shows through. -/
def css (color : Color) : String :=
  String.ofList ('#' :: (channel color.red ++ channel color.green ++ channel color.blue ++
    if color.alpha = opaqueAlpha then [] else channel color.alpha))

def label (color : Color) : String := "Color(" ++ color.css ++ ")"

end Color

structure Paint where
  background : Option Color := none
  borderColor : Option Color := none
  borderWidth : Float := 0
  cornerRadius : Float := 0
  alpha : Float32 := 1
  hidden : Bool := false
deriving BEq, Inhabited, Repr

inductive TextAlign where
  | natural
  | left
  | center
  | right
  | justify
deriving DecidableEq, Inhabited, Repr

/-- Natural alignment follows the writing direction and is not spelled out. -/
def TextAlign.keyword? : TextAlign → Option String
  | natural => none
  | left => some "left"
  | center => some "center"
  | right => some "right"
  | justify => some "justify"

structure Typography where
  family : Option String := none
  size : Float := 0
  color : Option Color := none
  align : TextAlign := .natural
deriving BEq, Inhabited, Repr

end SessionReplay
