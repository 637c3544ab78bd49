import SessionReplay.Document.Node
import SessionReplay.Style.Derived
import SessionReplay.Trace.Event
import SessionReplay.View.Introspection

/-!
The survey of a view tree: what is seen on the way down from a root view, before any ids are given
out. The tree that comes out has a node for the document, for every view that was reached and for
every text. A view that cannot be looked into leaves a plain element in its place, and where a
limit ends the way down, the last view stands there without its children and with a mark.
-/

namespace SessionReplay.Capture

structure Limits where
  /-- The level at which views are shown without their children. The document is level zero. -/
  maxDepth : UInt32 := 64
  /-- No further child is looked at once there are this many nodes. -/
  maxNodes : UInt32 := 10000
deriving DecidableEq, Repr

def Limits.unbounded : Limits := ⟨4294967295, 4294967295⟩

/-- What has been seen so far. -/
structure Tally where
  nodes : Nat := 0
  maxDepth : Nat := 0
  placeholders : Nat := 0
  truncated : Bool := false
deriving DecidableEq, Repr

namespace Tally

def count (depth : Nat) (tally : Tally) : Tally :=
  { tally with nodes := tally.nodes + 1, maxDepth := max tally.maxDepth depth }

def placeholder (tally : Tally) : Tally := { tally with placeholders := tally.placeholders + 1 }

def truncate (tally : Tally) : Tally := { tally with truncated := true }

end Tally

/-- What there is to report of a view: a question that it failed to answer, or a limit. -/
inductive Report where
  | failed (stage : Trace.Stage)
  | cut (limit : Trace.Limit) (depth : Nat)
deriving DecidableEq, Repr

/-- A node before it has an id. -/
structure Sighting where
  key : Identity.Key
  face : Face
  reports : List Report := []

/-- Where the children of a view are put: the map to the document's plane, and the part of it that
still shows. -/
structure Placement where
  transform : Affine
  clip : Rect

namespace Placement

def frameOf (place : Placement) (rect : Rect) : Rect := (place.transform.boundingBox rect).sanitize

end Placement

/-- The answer to a question, or a stand-in and a report of the failure. -/
def answerOr (fallback : α) (stage : Trace.Stage) : View.Answer α → α × List Report
  | .ok answer => (answer, [])
  | .error _ => (fallback, [.failed stage])

/-- The style that a view declares among its attributes. -/
def declaredStyle (entries : List (String × String)) : Style :=
  (entries.filter (·.1 = "style")).foldl (fun style entry => style.extend (Style.parse entry.2)) ∅

/-- The other attributes of a view. The mark of truncation is not for views to set. -/
def declaredAttributes (entries : List (String × String)) : Attributes :=
  .ofList (entries.filter fun entry => entry.1 ≠ "style" && entry.1 ≠ truncationMark)

/-- What a view's content makes of its element. -/
structure Portrait where
  tag : Tag
  attributes : Attributes := ∅
  style : Style := ∅
  typography : Option Typography := none
  /-- The text inside the element. -/
  text : Option String := none

def imageAttributes : Option View.Image → List (String × String)
  | some image => ("src", image.source) :: (image.label.toList.map fun label => ("alt", label))
  | none => []

structure Surveyor where
  source : View.Introspector
  rules : Masking.Rules
  limits : Limits

namespace Surveyor

variable (surveyor : Surveyor)

/-- The declarations that apply to a view, the nearest first. -/
def declarations (view : ViewHandle) (inherited : List Masking) : List Masking :=
  (surveyor.source.masking view).toList ++ inherited

def portrait (view : ViewHandle) (kind : View.Kind) : View.Answer Portrait :=
  let entries := surveyor.source.attributes view
  let attributes := declaredAttributes entries
  let style := declaredStyle entries
  match kind with
  | .container => .ok { tag := .div, attributes, style }
  | .unknown _ => .ok { tag := .div }
  | .text => do
      let content := (← surveyor.source.text view).getD {}
      return { tag := .div, attributes, style, typography := some content.typography
               text := some content.text }
  | .input => do
      let content := (← surveyor.source.text view).getD {}
      return { tag := .input, style, typography := some content.typography
               attributes := (attributes.insert "type" "text").insert "value" content.text }
  | .image => do
      let image ← surveyor.source.image view
      return { tag := .img, style, attributes := attributes.insertMany (imageAttributes image) }

/-- An element of which only place and paint are known. -/
def plainFace (place : Placement) (frame : Rect) (paint : Paint) (masked : Bool)
    (attributes : Attributes) : Face where
  kind := .element { tag := .div, attributes, style := Style.derived frame place.clip paint none }
  frame := frame
  clip := place.clip
  paint := paint
  masked := masked

/-- A view that could not be looked into. -/
def placeholder (place : Placement) (inherited : List Masking) (view : ViewHandle) (frame : Rect)
    (paint : Paint) (reports : List Report) (tally : Tally) : Tree Sighting × Tally :=
  let masked := surveyor.rules.resolve .container (surveyor.declarations view inherited)
  (.node { key := ⟨view, .view⟩, face := plainFace place frame paint masked ∅, reports } [],
    tally.placeholder)

/-- A view at which a limit ends the way down. -/
def terminal (limit : Trace.Limit) (depth : Nat) (place : Placement) (inherited : List Masking)
    (view : ViewHandle) (tally : Tally) : Tree Sighting × Tally :=
  let frame := place.frameOf (answerOr .zero .geometry (surveyor.source.frame view)).1
  let paint := (answerOr {} .paint (surveyor.source.paint view)).1
  let masked := surveyor.rules.resolve .container (surveyor.declarations view inherited)
  let marked := (∅ : Attributes).insert truncationMark "true"
  (.node
    { key := ⟨view, .view⟩
      face := plainFace place frame paint masked marked
      reports := [.cut limit depth] } [],
    (tally.count depth).truncate)

/-- The children of a view, up to the first for which there is no room. -/
def siblings (visit stop : ViewHandle → Tally → Tree Sighting × Tally) :
    List ViewHandle → Tally → List (Tree Sighting) × Tally
  | [], tally => ([], tally)
  | view :: views, tally =>
      if surveyor.limits.maxNodes.toNat ≤ tally.nodes then
        let (last, tally) := stop view tally
        ([last], tally)
      else
        let (tree, tally) := visit view tally
        let (trees, tally) := siblings visit stop views tally
        (tree :: trees, tally)

/-- The placement of a view's children. The view's own clip counts in the plane of its parent, and
its own transform does not move it. -/
def placeInside (place : Placement) (view : ViewHandle) : Placement × List Report :=
  let (clip, reports) := answerOr none .geometry (surveyor.source.clip view)
  ({ transform := place.transform * surveyor.source.transform view
     clip := (clip.map fun rect => place.clip.intersect (place.frameOf rect)).getD place.clip },
    reports)

/-- The node for the text inside a view's element. -/
def textNodes (view : ViewHandle) (face : Face) (text : Option String) : List (Tree Sighting) :=
  text.toList.map fun content =>
    .node
      { key := ⟨view, .text⟩
        face := { face with kind := .text content false, paint := {} } } []

/-- Kinds that have no counterpart count as placeholders, but are looked into. -/
def unknownReports : View.Kind → List Report
  | .unknown _ => [.failed .unknownKind]
  | _ => []

/-- The view and all that is seen below it, with `levels` to go until the greatest depth. -/
def visit : (levels : Nat) → (depth : Nat) → Placement → (inherited : List Masking) → ViewHandle →
    Tally → Tree Sighting × Tally
  | 0, depth, place, inherited, view, tally =>
      surveyor.terminal .depth depth place inherited view tally
  | levels + 1, depth, place, inherited, view, tally =>
      let tally := tally.count depth
      let (rect, frameReports) := answerOr .zero .geometry (surveyor.source.frame view)
      let (paint, paintReports) := answerOr {} .paint (surveyor.source.paint view)
      let frame := place.frameOf rect
      match surveyor.source.kind view with
      | .error _ =>
          surveyor.placeholder place inherited view frame paint
            (.failed .kind :: (frameReports ++ paintReports)) tally
      | .ok kind =>
        match surveyor.portrait view kind with
        | .error _ =>
            surveyor.placeholder place inherited view frame paint
              (frameReports ++ paintReports ++ [.failed .content]) tally
        | .ok portrait =>
            let declared := surveyor.declarations view inherited
            let style := portrait.style.extend
              (Style.derived frame place.clip paint portrait.typography)
            let face : Face :=
              { kind := .element { tag := portrait.tag, attributes := portrait.attributes, style }
                frame, clip := place.clip, paint
                masked := surveyor.rules.resolve kind.content declared }
            let tally := if (unknownReports kind).isEmpty then tally else tally.placeholder
            let texts := textNodes view face portrait.text
            let tally := if texts.isEmpty then tally else tally.count (depth + 1)
            let (inside, clipReports) := surveyor.placeInside place view
            let (children, tally) := surveyor.siblings (visit levels (depth + 1) inside declared)
              (surveyor.terminal .nodeBudget (depth + 1) inside declared)
              (surveyor.source.children view) tally
            (.node
              { key := ⟨view, .view⟩, face
                reports := frameReports ++ paintReports ++ unknownReports kind ++ clipReports }
              (texts ++ children),
              tally)

/-- The document with all that is seen from its root view. The root view is visited whatever the
limits are. -/
def survey (root : ViewHandle) : Tree Sighting × Tally :=
  let frame := (answerOr .zero .geometry (surveyor.source.frame root)).1.sanitize
  let (child, tally) := surveyor.visit (surveyor.limits.maxDepth.toNat - 1) 1
    ⟨.identity, frame⟩ [] root (Tally.count 0 {})
  (.node { key := ⟨root, .document⟩, face := { kind := .document, frame, clip := frame } } [child],
    tally)

end Surveyor

end SessionReplay.Capture
