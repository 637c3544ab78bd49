import SessionReplay.Decimal.Layout
import SessionReplay.Geometry
import SessionReplay.Paint
import SessionReplay.Style.Basic

/-!
The style that gives an element the look of a view: its place, its paint, its clip and the setting
of its text. Lengths are in pixels, to two decimal places.
-/

namespace SessionReplay.Style

open SessionReplay.Geometry (greater)

/-- The nearest hundredth. A number that is not finite becomes zero, and so does negative zero. -/
def hundredths (number : Float) : Float :=
  if number.isFinite then
    let rounded := (number * 100).round / 100
    if rounded == 0 then 0 else rounded
  else 0

def numberText (number : Float) : String := Decimal.Layout.plain.write (hundredths number)

def px (length : Float) : String := numberText length ++ "px"

/-- How far the clip reaches into each side of the frame: top, right, bottom, left. Without a
value when no side is clipped. -/
def clipInset? (frame clip : Rect) : Option String :=
  let top := greater (clip.y0 - frame.y0) 0
  let right := greater (frame.x1 - clip.x1) 0
  let bottom := greater (frame.y1 - clip.y1) 0
  let left := greater (clip.x0 - frame.x0) 0
  if top == 0 && right == 0 && bottom == 0 && left == 0 then none
  else some ("inset(" ++ px top ++ " " ++ px right ++ " " ++ px bottom ++ " " ++ px left ++ ")")

def placeEntries (frame : Rect) : List (String × String) :=
  [("position", "absolute"), ("left", px frame.x0), ("top", px frame.y0),
   ("width", px frame.width), ("height", px frame.height)]

/-- An entry for a value that may be missing. -/
def entry? (name : String) (value : Option String) : List (String × String) :=
  value.toList.map fun text => (name, text)

def borderEntries (paint : Paint) : List (String × String) :=
  if paint.borderWidth > 0 then
    entry? "border-color" (paint.borderColor.map Color.css) ++
      [("border-width", px paint.borderWidth), ("border-style", "solid")]
  else []

def opacityEntries (alpha : Float32) : List (String × String) :=
  if alpha < 1 then
    [("opacity", numberText (if alpha < 0 then (0 : Float32) else alpha).toFloat)]
  else []

def paintEntries (paint : Paint) : List (String × String) :=
  entry? "background-color" ((paint.background.filter (!·.isTransparent)).map Color.css) ++
    borderEntries paint ++
    (if paint.cornerRadius > 0 then [("border-radius", px paint.cornerRadius)] else []) ++
    opacityEntries paint.alpha ++
    (if paint.hidden then [("visibility", "hidden")] else [])

def textEntries (typography : Typography) : List (String × String) :=
  entry? "color" (typography.color.map Color.css) ++
    (if typography.size > 0 then [("font-size", px typography.size)] else []) ++
    entry? "font-family" typography.family ++
    entry? "text-align" typography.align.keyword?

def derived (frame clip : Rect) (paint : Paint) (typography : Option Typography) : Style :=
  Std.ExtTreeMap.ofList (placeEntries frame ++ paintEntries paint ++
    entry? "clip-path" (clipInset? frame clip) ++ typography.toList.flatMap textEntries)

end SessionReplay.Style
