/-!
Points, rectangles and affine maps of the plane, in doubles. Sums are taken from left to right,
and no law of arithmetic is assumed of them.
-/

namespace SessionReplay

structure Point where
  x : Float
  y : Float
deriving Repr

/-- A rectangle by its corners. Nothing keeps the first corner above and left of the second. -/
structure Rect where
  x0 : Float
  y0 : Float
  x1 : Float
  y1 : Float
deriving BEq, Inhabited, Repr

/-- Takes a point `(x, y)` to `(a * x + c * y + e, b * x + d * y + f)`. -/
structure Affine where
  a : Float
  b : Float
  c : Float
  d : Float
  e : Float
  f : Float
deriving BEq, Inhabited, Repr

namespace Geometry

/-- The lesser of two numbers; when one of them is no number, the other. -/
def lesser (x y : Float) : Float := if y < x || x.isNaN then y else x

/-- The greater of two numbers; when one of them is no number, the other. -/
def greater (x y : Float) : Float := if x < y || x.isNaN then y else x

end Geometry

open SessionReplay.Geometry

namespace Rect

def zero : Rect := ⟨0, 0, 0, 0⟩

def width (rect : Rect) : Float := rect.x1 - rect.x0

def height (rect : Rect) : Float := rect.y1 - rect.y0

/-- The same corners, the upper left one first. -/
def upright (rect : Rect) : Rect :=
  ⟨lesser rect.x0 rect.x1, lesser rect.y0 rect.y1, greater rect.x0 rect.x1, greater rect.y0 rect.y1⟩

/-- The upright rectangle with two given points as corners. -/
def spanning (p q : Point) : Rect := upright ⟨p.x, p.y, q.x, q.y⟩

def union (r s : Rect) : Rect :=
  ⟨lesser r.x0 s.x0, lesser r.y0 s.y0, greater r.x1 s.x1, greater r.y1 s.y1⟩

/-- The common part; where there is none, an empty rectangle. -/
def intersect (r s : Rect) : Rect :=
  let x0 := greater r.x0 s.x0
  let y0 := greater r.y0 s.y0
  ⟨x0, y0, greater (lesser r.x1 s.x1) x0, greater (lesser r.y1 s.y1) y0⟩

def isFinite (rect : Rect) : Bool :=
  rect.x0.isFinite && rect.y0.isFinite && rect.x1.isFinite && rect.y1.isFinite

/-- What a recording keeps of a reported rectangle: upright, and the zero rectangle when a corner
is not finite. -/
def sanitize (rect : Rect) : Rect := if rect.isFinite then rect.upright else zero

end Rect

namespace Affine

def identity : Affine := ⟨1, 0, 0, 1, 0, 0⟩

/-- First `n`, then `m`. -/
def compose (m n : Affine) : Affine where
  a := m.a * n.a + m.c * n.b
  b := m.b * n.a + m.d * n.b
  c := m.a * n.c + m.c * n.d
  d := m.b * n.c + m.d * n.d
  e := m.a * n.e + m.c * n.f + m.e
  f := m.b * n.e + m.d * n.f + m.f

instance : Mul Affine := ⟨compose⟩

def apply (m : Affine) (p : Point) : Point :=
  ⟨m.a * p.x + m.c * p.y + m.e, m.b * p.x + m.d * p.y + m.f⟩

/-- The upright rectangle around the images of the four corners. -/
def boundingBox (m : Affine) (rect : Rect) : Rect :=
  (Rect.spanning (m.apply ⟨rect.x0, rect.y0⟩) (m.apply ⟨rect.x0, rect.y1⟩)).union
    (Rect.spanning (m.apply ⟨rect.x1, rect.y0⟩) (m.apply ⟨rect.x1, rect.y1⟩))

end Affine

end SessionReplay
