import SessionReplay.Capture.Survey
import SessionReplay.Proofs.Tree.Shape
import Mathlib.Data.List.Forall2

/-!
The walk through the views, as a principle of induction. What a visit leaves for a view is the end
of the way at a limit, a placeholder, or an element with its text and what is left for its first
children.
-/

namespace SessionReplay.Capture

namespace Surveyor

variable {surveyor : Surveyor}

/-- There is no room for a further child. -/
def Full (surveyor : Surveyor) (tally : Tally) : Prop :=
  surveyor.limits.maxNodes.toNat ≤ tally.nodes

/-- What is left for the children of a view. Each that there is room for is visited, and the first
for which there is none is the last. -/
inductive Row (full : Tally → Prop) (stop : ViewHandle → Tally → Tree Sighting × Tally)
    (visited : ViewHandle → Tally → Tree Sighting → Tally → Prop) :
    List ViewHandle → Tally → List (Tree Sighting) → Tally → Prop
  | done (tally : Tally) : Row full stop visited [] tally [] tally
  | last {view : ViewHandle} {views : List ViewHandle} {tally : Tally} (room : full tally) :
      Row full stop visited (view :: views) tally [(stop view tally).1] (stop view tally).2
  | next {view : ViewHandle} {views : List ViewHandle} {tally middle after : Tally}
      {tree : Tree Sighting} {trees : List (Tree Sighting)} (room : ¬full tally)
      (first : visited view tally tree middle)
      (rest : Row full stop visited views middle trees after) :
      Row full stop visited (view :: views) tally (tree :: trees) after

theorem row_siblings {visit stop : ViewHandle → Tally → Tree Sighting × Tally}
    {visited : ViewHandle → Tally → Tree Sighting → Tally → Prop}
    (each : ∀ view tally, visited view tally (visit view tally).1 (visit view tally).2)
    (views : List ViewHandle) (tally : Tally) :
    Row surveyor.Full stop visited views tally (surveyor.siblings visit stop views tally).1
      (surveyor.siblings visit stop views tally).2 := by
  induction views generalizing tally with
  | nil => exact .done tally
  | cons view views induction =>
      rw [siblings]
      split
      case isTrue room => exact .last room
      case isFalse room => exact .next room (each view tally) (induction _)

/-- Whatever holds of a visited view and of the view at a limit holds all along a row. -/
theorem row_forall₂ {full : Tally → Prop} {stop : ViewHandle → Tally → Tree Sighting × Tally}
    {visited : ViewHandle → Tally → Tree Sighting → Tally → Prop}
    (property : ViewHandle → Tree Sighting → Prop)
    (each : ∀ view tally tree after, visited view tally tree after → property view tree)
    (stopped : ∀ view tally, property view (stop view tally).1) {views : List ViewHandle}
    {tally after : Tally} {trees : List (Tree Sighting)}
    (row : Row full stop visited views tally trees after) :
    ∃ seen, seen <+: views ∧ List.Forall₂ property seen trees := by
  induction row with
  | done => exact ⟨[], List.prefix_rfl, List.Forall₂.nil⟩
  | @last view views tally =>
      refine ⟨[view], by simp, ?_⟩
      exact List.Forall₂.cons (stopped view tally) List.Forall₂.nil
  | @next view _ _ _ _ _ _ _ here _ induction =>
      obtain ⟨seen, first, all⟩ := induction
      exact ⟨view :: seen, List.cons_prefix_cons.mpr ⟨rfl, first⟩,
        List.Forall₂.cons (each _ _ _ _ here) all⟩

theorem exists_of_forall₂ {property : ViewHandle → Tree Sighting → Prop} {seen : List ViewHandle}
    {trees : List (Tree Sighting)} (all : List.Forall₂ property seen trees) {tree : Tree Sighting}
    (member : tree ∈ trees) : ∃ view ∈ seen, property view tree := by
  induction all with
  | nil => contradiction
  | @cons view first seen trees here _ induction =>
      rcases List.mem_cons.mp member with rfl | later
      · exact ⟨view, List.mem_cons_self, here⟩
      · obtain ⟨other, inside, known⟩ := induction later
        exact ⟨other, List.mem_cons_of_mem _ inside, known⟩

/-- A view that does not tell its kind, or not the content of its kind. -/
def Fails (surveyor : Surveyor) (view : ViewHandle) : Prop :=
  ∀ kind, surveyor.source.kind view = .ok kind →
    ∃ cause, surveyor.portrait view kind = .error cause

def shownFrame (surveyor : Surveyor) (place : Placement) (view : ViewHandle) : Rect :=
  place.frameOf (answerOr .zero .geometry (surveyor.source.frame view)).1

def shownPaint (surveyor : Surveyor) (view : ViewHandle) : Paint :=
  (answerOr {} .paint (surveyor.source.paint view)).1

/-- The face of the element for a view that could be looked into. -/
def elementFace (surveyor : Surveyor) (place : Placement) (inherited : List Masking)
    (view : ViewHandle) (kind : View.Kind) (portrait : Portrait) : Face where
  kind :=
    .element
      { tag := portrait.tag
        attributes := portrait.attributes
        style := portrait.style.extend (Style.derived (surveyor.shownFrame place view) place.clip
          (surveyor.shownPaint view) portrait.typography) }
  frame := surveyor.shownFrame place view
  clip := place.clip
  paint := surveyor.shownPaint view
  masked := surveyor.rules.resolve kind.content (surveyor.declarations view inherited)

def elementReports (surveyor : Surveyor) (place : Placement) (view : ViewHandle)
    (kind : View.Kind) : List Report :=
  (answerOr Rect.zero .geometry (surveyor.source.frame view)).2 ++
    (answerOr ({} : Paint) .paint (surveyor.source.paint view)).2 ++ unknownReports kind ++
    (surveyor.placeInside place view).2

/-- The tally with the element of a view and its text. -/
def inspected (depth : Nat) (kind : View.Kind) (portrait : Portrait) (tally : Tally) : Tally :=
  let tally := tally.count depth
  let tally := if (unknownReports kind).isEmpty then tally else tally.placeholder
  if portrait.text.isNone then tally else tally.count (depth + 1)

def below (surveyor : Surveyor) (levels depth : Nat) (place : Placement) (inherited : List Masking)
    (view : ViewHandle) (kind : View.Kind) (portrait : Portrait) (tally : Tally) :
    List (Tree Sighting) × Tally :=
  let inside := (surveyor.placeInside place view).1
  let declared := surveyor.declarations view inherited
  surveyor.siblings (surveyor.visit levels (depth + 1) inside declared)
    (surveyor.terminal .nodeBudget (depth + 1) inside declared) (surveyor.source.children view)
    (inspected depth kind portrait tally)

theorem isEmpty_textNodes (view : ViewHandle) (face : Face) (text : Option String) :
    (textNodes view face text).isEmpty = text.isNone := by
  cases text <;> rfl

theorem visit_answered {view : ViewHandle} {kind : View.Kind} {portrait : Portrait}
    (told : surveyor.source.kind view = .ok kind)
    (answered : surveyor.portrait view kind = .ok portrait) (levels depth : Nat)
    (place : Placement) (inherited : List Masking) (tally : Tally) :
    surveyor.visit (levels + 1) depth place inherited view tally =
      (.node
        { key := ⟨view, .view⟩
          face := surveyor.elementFace place inherited view kind portrait
          reports := surveyor.elementReports place view kind }
        (textNodes view (surveyor.elementFace place inherited view kind portrait) portrait.text ++
          (surveyor.below levels depth place inherited view kind portrait tally).1),
        (surveyor.below levels depth place inherited view kind portrait tally).2) := by
  simp only [visit, told, answered, isEmpty_textNodes]
  rfl

theorem mem_textNodes {view : ViewHandle} {face : Face} {text : Option String}
    {tree : Tree Sighting} (member : tree ∈ textNodes view face text) :
    ∃ content, tree = .node
      { key := ⟨view, .text⟩
        face := { face with kind := .text content false, paint := {} } } [] := by
  obtain ⟨content, -, rfl⟩ := List.mem_map.mp member
  exact ⟨content, rfl⟩

/-- What a view that answers is pictured as, kind by kind. -/
theorem portrait_cases {view : ViewHandle} {kind : View.Kind} {portrait : Portrait}
    (answered : surveyor.portrait view kind = .ok portrait) :
    let entries := surveyor.source.attributes view
    let attributes := declaredAttributes entries
    let style := declaredStyle entries
    (kind = .container ∧ portrait = { tag := .div, attributes, style }) ∨
    (∃ name, kind = .unknown name ∧ portrait = { tag := .div }) ∨
    (∃ content, kind = .text ∧ surveyor.source.text view = .ok content ∧
      portrait = { tag := .div, attributes, style,
                   typography := some (content.getD {}).typography,
                   text := some (content.getD {}).text }) ∨
    (∃ content, kind = .input ∧ surveyor.source.text view = .ok content ∧
      portrait = { tag := .input, style, typography := some (content.getD {}).typography,
                   attributes := (attributes.insert "type" "text").insert "value"
                     (content.getD {}).text }) ∨
    (∃ image, kind = .image ∧ surveyor.source.image view = .ok image ∧
      portrait = { tag := .img, style,
                   attributes := attributes.insertMany (imageAttributes image) }) := by
  cases kind with
  | container => exact .inl ⟨rfl, (Except.ok.inj answered).symm⟩
  | unknown name => exact .inr (.inl ⟨name, rfl, (Except.ok.inj answered).symm⟩)
  | text =>
      simp only [Surveyor.portrait] at answered
      cases told : surveyor.source.text view with
      | error cause => rw [told] at answered; contradiction
      | ok content =>
          rw [told] at answered
          exact .inr (.inr (.inl ⟨content, rfl, rfl, (Except.ok.inj answered).symm⟩))
  | input =>
      simp only [Surveyor.portrait] at answered
      cases told : surveyor.source.text view with
      | error cause => rw [told] at answered; contradiction
      | ok content =>
          rw [told] at answered
          exact .inr (.inr (.inr (.inl ⟨content, rfl, rfl, (Except.ok.inj answered).symm⟩)))
  | image =>
      simp only [Surveyor.portrait] at answered
      cases told : surveyor.source.image view with
      | error cause => rw [told] at answered; contradiction
      | ok image =>
          rw [told] at answered
          exact .inr (.inr (.inr (.inr ⟨image, rfl, rfl, (Except.ok.inj answered).symm⟩)))

theorem declaredAttributes_absent (entries : List (String × String)) :
    "style" ∉ declaredAttributes entries ∧ truncationMark ∉ declaredAttributes entries := by
  simp [declaredAttributes, Std.ExtTreeMap.mem_ofList, truncationMark]

/-- A view cannot give its element a style as one attribute, nor the mark of truncation. -/
theorem portrait_attributes {view : ViewHandle} {kind : View.Kind} {portrait : Portrait}
    (answered : surveyor.portrait view kind = .ok portrait) :
    "style" ∉ portrait.attributes ∧ truncationMark ∉ portrait.attributes := by
  obtain ⟨style, mark⟩ := declaredAttributes_absent (surveyor.source.attributes view)
  rcases portrait_cases answered with ⟨-, rfl⟩ | ⟨name, -, rfl⟩ | ⟨content, -, -, rfl⟩ |
    ⟨content, -, -, rfl⟩ | ⟨image, -, -, rfl⟩
  · exact ⟨style, mark⟩
  · simp
  · exact ⟨style, mark⟩
  · rw [truncationMark] at mark
    simp [style, mark, truncationMark]
  · have named : ∀ entry ∈ imageAttributes image, entry.1 = "src" ∨ entry.1 = "alt" := by
      intro entry member
      cases image with
      | none => contradiction
      | some image =>
          rcases List.mem_cons.mp member with rfl | alternative
          · exact .inl rfl
          · obtain ⟨label, -, rfl⟩ := List.mem_map.mp alternative
            exact .inr rfl
    have others : ∀ name, name ≠ "src" → name ≠ "alt" →
        name ∉ declaredAttributes (surveyor.source.attributes view) →
        name ∉ (declaredAttributes (surveyor.source.attributes view)).insertMany
          (imageAttributes image) := by
      intro name source label absent inside
      rw [Std.ExtTreeMap.mem_insertMany_list] at inside
      rcases inside with before | listed
      · exact absent before
      · obtain ⟨entry, member, same⟩ := List.mem_map.mp (List.contains_iff_mem.mp listed)
        rcases named entry member with given | given
        · exact source (same.symm.trans given)
        · exact label (same.symm.trans given)
    exact ⟨others _ (by decide) (by decide) style, others _ (by decide) (by decide) mark⟩

/-- The questions about place and paint that a view failed to answer. -/
def faceReports (surveyor : Surveyor) (view : ViewHandle) : List Report :=
  (answerOr Rect.zero .geometry (surveyor.source.frame view)).2 ++
    (answerOr ({} : Paint) .paint (surveyor.source.paint view)).2

/-- A view that does not tell its kind. -/
def untold (surveyor : Surveyor) (depth : Nat) (place : Placement) (inherited : List Masking)
    (view : ViewHandle) (tally : Tally) : Tree Sighting × Tally :=
  surveyor.placeholder place inherited view (surveyor.shownFrame place view)
    (surveyor.shownPaint view) (.failed .kind :: surveyor.faceReports view) (tally.count depth)

/-- A view that does not give the content of its kind. -/
def unanswered (surveyor : Surveyor) (depth : Nat) (place : Placement) (inherited : List Masking)
    (view : ViewHandle) (tally : Tally) : Tree Sighting × Tally :=
  surveyor.placeholder place inherited view (surveyor.shownFrame place view)
    (surveyor.shownPaint view) (surveyor.faceReports view ++ [.failed .content])
    (tally.count depth)

section TallyInduction

variable {motive : Nat → Nat → Placement → List Masking → ViewHandle → Tally → Tree Sighting →
  Tally → Prop}

/-- What is kept by the end of the way at the greatest depth, by placeholders and by elements with
what is left below them is kept by a visit. -/
theorem visit_tally_induction
    (limit : ∀ depth place inherited view tally, motive 0 depth place inherited view tally
      (surveyor.terminal .depth depth place inherited view tally).1
      (surveyor.terminal .depth depth place inherited view tally).2)
    (untold : ∀ levels depth place inherited view tally cause,
      surveyor.source.kind view = .error cause →
      motive (levels + 1) depth place inherited view tally
        (surveyor.untold depth place inherited view tally).1
        (surveyor.untold depth place inherited view tally).2)
    (unanswered : ∀ levels depth place inherited view tally kind cause,
      surveyor.source.kind view = .ok kind → surveyor.portrait view kind = .error cause →
      motive (levels + 1) depth place inherited view tally
        (surveyor.unanswered depth place inherited view tally).1
        (surveyor.unanswered depth place inherited view tally).2)
    (element : ∀ levels depth place inherited view tally kind portrait trees after,
      surveyor.source.kind view = .ok kind → surveyor.portrait view kind = .ok portrait →
      Row surveyor.Full
        (surveyor.terminal .nodeBudget (depth + 1) (surveyor.placeInside place view).1
          (surveyor.declarations view inherited))
        (motive levels (depth + 1) (surveyor.placeInside place view).1
          (surveyor.declarations view inherited))
        (surveyor.source.children view) (inspected depth kind portrait tally) trees after →
      let face := surveyor.elementFace place inherited view kind portrait
      let reports := surveyor.elementReports place view kind
      motive (levels + 1) depth place inherited view tally
        (.node { key := ⟨view, .view⟩, face, reports }
          (textNodes view face portrait.text ++ trees)) after)
    (levels depth : Nat) (place : Placement) (inherited : List Masking) (view : ViewHandle)
    (tally : Tally) :
    motive levels depth place inherited view tally
      (surveyor.visit levels depth place inherited view tally).1
      (surveyor.visit levels depth place inherited view tally).2 := by
  induction levels generalizing depth place inherited view tally with
  | zero => exact limit depth place inherited view tally
  | succ levels induction =>
      cases told : surveyor.source.kind view with
      | error cause =>
          simp only [visit, told]
          exact untold levels depth place inherited view tally cause told
      | ok kind =>
          cases answered : surveyor.portrait view kind with
          | error cause =>
              simp only [visit, told, answered]
              exact unanswered levels depth place inherited view tally kind cause told answered
          | ok portrait =>
              rw [visit_answered told answered]
              exact element levels depth place inherited view tally kind portrait _ _ told answered
                (row_siblings (fun view tally => induction _ _ _ view tally) _ _)

end TallyInduction

section Induction

variable {motive : Nat → Nat → Placement → List Masking → ViewHandle → Tree Sighting → Prop}

/-- The same with no regard to the tally. -/
theorem visit_induction
    (terminal : ∀ levels depth place inherited view limit tally,
      motive levels depth place inherited view
        (surveyor.terminal limit depth place inherited view tally).1)
    (placeholder : ∀ levels depth place inherited view frame paint reports tally,
      surveyor.Fails view → motive (levels + 1) depth place inherited view
        (surveyor.placeholder place inherited view frame paint reports tally).1)
    (element : ∀ levels depth place inherited view kind portrait seen children,
      surveyor.source.kind view = .ok kind → surveyor.portrait view kind = .ok portrait →
      seen <+: surveyor.source.children view →
      List.Forall₂ (motive levels (depth + 1) (surveyor.placeInside place view).1
        (surveyor.declarations view inherited)) seen children →
      let face := surveyor.elementFace place inherited view kind portrait
      let reports := surveyor.elementReports place view kind
      motive (levels + 1) depth place inherited view
        (.node { key := ⟨view, .view⟩, face, reports }
          (textNodes view face portrait.text ++ children)))
    (levels depth : Nat) (place : Placement) (inherited : List Masking) (view : ViewHandle)
    (tally : Tally) :
    motive levels depth place inherited view
      (surveyor.visit levels depth place inherited view tally).1 := by
  apply visit_tally_induction (motive := fun levels depth place inherited view _ tree _ =>
    motive levels depth place inherited view tree)
  case limit =>
    exact fun depth place inherited view tally => terminal 0 depth place inherited view .depth tally
  case untold =>
    intro levels depth place inherited view tally cause told
    apply placeholder
    intro kind same
    rw [told] at same
    contradiction
  case unanswered =>
    intro levels depth place inherited view tally kind cause told answered
    apply placeholder
    intro other same
    rw [told] at same
    cases same
    exact ⟨cause, answered⟩
  case element =>
    intro levels depth place inherited view tally kind portrait trees after told answered row
      face reports
    obtain ⟨seen, first, all⟩ := row_forall₂
      (motive levels (depth + 1) (surveyor.placeInside place view).1
        (surveyor.declarations view inherited))
      (fun _ _ _ _ known => known)
      (fun view tally => terminal levels (depth + 1) _ _ view .nodeBudget tally) row
    exact element levels depth place inherited view kind portrait seen trees told answered first all

end Induction

end Surveyor

end SessionReplay.Capture
