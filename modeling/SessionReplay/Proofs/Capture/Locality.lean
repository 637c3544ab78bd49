import SessionReplay.Proofs.Capture.Ceiling
import SessionReplay.Proofs.Capture.Placing
import SessionReplay.Proofs.Tree.Outside
import SessionReplay.Proofs.View.Ancestry

/-!
How far it reaches what one view answers. When two hosts answer alike about all views but one and
those beneath it, what is captured is the same outside the subtree of that view, which stands in the
same place. Only the root view reaches further: its frame is the frame of the document.
-/

namespace SessionReplay

namespace View.Introspector

variable {source other : Introspector} {root view current child : ViewHandle}

/-- A view that is reached through another, or that one itself. -/
def Beneath (source : Introspector) (root view below : ViewHandle) : Prop :=
  ∃ way rest, source.follow root way = some view ∧ source.follow view rest = some below

/-- The hosts give the same answers about a view. -/
structure Agrees (source other : Introspector) (view : ViewHandle) : Prop where
  kind : other.kind view = source.kind view
  frame : other.frame view = source.frame view
  transform : other.transform view = source.transform view
  clip : other.clip view = source.clip view
  paint : other.paint view = source.paint view
  text : other.text view = source.text view
  image : other.image view = source.image view
  children : other.children view = source.children view
  masking : other.masking view = source.masking view
  attributes : other.attributes view = source.attributes view

/-- The hosts give the same answers about all views but one and those that either has beneath it. -/
def AgreesBut (source other : Introspector) (root view : ViewHandle) : Prop :=
  ∀ another, another ≠ view → ¬source.Beneath root view another →
    ¬other.Beneath root view another → source.Agrees other another

theorem follow_append {first : List Nat} (there : source.follow root first = some view)
    (second : List Nat) : source.follow root (first ++ second) = source.follow view second := by
  induction first generalizing root with
  | nil => rw [List.nil_append, Option.some.inj there]
  | cons place first induction =>
      rw [follow] at there
      split at there
      case h_1 child found => rw [List.cons_append, follow_child found, induction there]
      case h_2 => contradiction

/-- A view that is reached on a way that does not pass by another. -/
def Around (source : Introspector) (root view current : ViewHandle) : Prop :=
  ∃ way, source.follow root way = some current ∧
    ∀ before, before <+: way → before ≠ way → source.follow root before ≠ some view

theorem around_root (source : Introspector) (root view : ViewHandle) :
    source.Around root view root :=
  ⟨[], rfl, fun _ first proper => absurd (List.prefix_nil.mp first) proper⟩

theorem Around.deeper (around : source.Around root view current) (different : current ≠ view)
    (listed : child ∈ source.children current) : source.Around root view child := by
  obtain ⟨way, there, clear⟩ := around
  obtain ⟨place, found⟩ := List.mem_iff_getElem?.mp listed
  refine ⟨way ++ [place], ?_, ?_⟩
  · rw [follow_concat, there]
    exact found
  · intro before first proper
    have inner : before <+: way := (List.prefix_concat_iff.mp first).resolve_left proper
    by_cases whole : before = way
    · rw [whole, there]
      exact fun same => different (Option.some.inj same)
    · exact clear before inner whole

/-- When no view is reached twice, a view is not also beneath one that the way to it avoids. -/
theorem Around.not_beneath (around : source.Around root view current) (different : current ≠ view)
    (once : source.ReachesOnce root) : ¬source.Beneath root view current := by
  rintro ⟨first, rest, there, below⟩
  obtain ⟨way, arrives, clear⟩ := around
  have same : way = first ++ rest :=
    once _ _ current arrives ((follow_append there rest).trans below)
  have proper : first ≠ way := by
    rintro rfl
    rw [arrives] at there
    exact different (Option.some.inj there)
  exact clear first (same ▸ List.prefix_append first rest) proper there

/-- What is reached around the one view in both hosts is what they agree about. -/
theorem AgreesBut.around (agrees : source.AgreesBut other root view)
    (once : source.ReachesOnce root) (otherOnce : other.ReachesOnce root)
    (around : source.Around root view current) (also : other.Around root view current)
    (different : current ≠ view) : source.Agrees other current :=
  agrees current different (around.not_beneath different once)
    (also.not_beneath different otherOnce)

end View.Introspector

namespace Capture

namespace Surveyor

open SessionReplay.View (Introspector)

variable {surveyor : Surveyor} {other : Introspector} {view : ViewHandle}

/-- The same survey of another host. -/
def facing (surveyor : Surveyor) (other : Introspector) : Surveyor :=
  { surveyor with source := other }

section Agreement

variable (agrees : surveyor.source.Agrees other view)

include agrees

theorem declarations_facing (inherited : List Masking) :
    (surveyor.facing other).declarations view inherited = surveyor.declarations view inherited := by
  simp only [declarations, facing, agrees.masking]

theorem terminal_facing (limit : Trace.Limit) (depth : Nat) (place : Placement)
    (inherited : List Masking) (tally : Tally) :
    (surveyor.facing other).terminal limit depth place inherited view tally =
      surveyor.terminal limit depth place inherited view tally := by
  simp only [terminal, declarations, facing, agrees.frame, agrees.paint, agrees.masking]

theorem untold_facing (depth : Nat) (place : Placement) (inherited : List Masking)
    (tally : Tally) :
    (surveyor.facing other).untold depth place inherited view tally =
      surveyor.untold depth place inherited view tally := by
  simp only [untold, placeholder, shownFrame, shownPaint, faceReports, declarations, facing,
    agrees.frame, agrees.paint, agrees.masking]

theorem unanswered_facing (depth : Nat) (place : Placement) (inherited : List Masking)
    (tally : Tally) :
    (surveyor.facing other).unanswered depth place inherited view tally =
      surveyor.unanswered depth place inherited view tally := by
  simp only [unanswered, placeholder, shownFrame, shownPaint, faceReports, declarations, facing,
    agrees.frame, agrees.paint, agrees.masking]

theorem portrait_facing (kind : View.Kind) :
    (surveyor.facing other).portrait view kind = surveyor.portrait view kind := by
  simp only [portrait, facing, agrees.attributes, agrees.text, agrees.image]

theorem elementFace_facing (place : Placement) (inherited : List Masking) (kind : View.Kind)
    (portrait : Portrait) :
    (surveyor.facing other).elementFace place inherited view kind portrait =
      surveyor.elementFace place inherited view kind portrait := by
  simp only [elementFace, shownFrame, shownPaint, declarations, facing, agrees.frame, agrees.paint,
    agrees.masking]

theorem placeInside_facing (place : Placement) :
    (surveyor.facing other).placeInside place view = surveyor.placeInside place view := by
  simp only [placeInside, facing, agrees.clip, agrees.transform]

theorem elementReports_facing (place : Placement) (kind : View.Kind) :
    (surveyor.facing other).elementReports place view kind =
      surveyor.elementReports place view kind := by
  simp only [elementReports, placeInside_facing agrees]
  simp only [facing, agrees.frame, agrees.paint]

end Agreement

theorem prospect_sameBut {root : ViewHandle} (once : surveyor.source.ReachesOnce root)
    (otherOnce : other.ReachesOnce root) (agrees : surveyor.source.AgreesBut other root view)
    (levels depth : Nat) (place : Placement) (inherited : List Masking) (current : ViewHandle)
    (around : surveyor.source.Around root view current) (also : other.Around root view current) :
    Tree.SameBut (Sighting.key · = ⟨view, .view⟩)
      (surveyor.prospect levels depth place inherited current)
      ((surveyor.facing other).prospect levels depth place inherited current) := by
  induction levels generalizing depth place inherited current with
  | zero =>
      by_cases here : current = view
      · exact here ▸ .inside (shown_prospect _ _ _ _ _).key (shown_prospect _ _ _ _ _).key
      · have same := agrees.around once otherOnce around also here
        rw [prospect, prospect, terminal_facing same]
        exact .refl _
  | succ levels induction =>
      by_cases here : current = view
      · exact here ▸ .inside (shown_prospect _ _ _ _ _).key (shown_prospect _ _ _ _ _).key
      · have same := agrees.around once otherOnce around also here
        have kinds : (surveyor.facing other).source.kind current = surveyor.source.kind current :=
          same.kind
        cases told : surveyor.source.kind current with
        | error cause =>
            rw [told] at kinds
            simp only [prospect, told, kinds, untold_facing same]
            exact .refl _
        | ok kind =>
            rw [told] at kinds
            have portraits : (surveyor.facing other).portrait current kind =
                surveyor.portrait current kind := portrait_facing same kind
            cases answered : surveyor.portrait current kind with
            | error cause =>
                rw [answered] at portraits
                simp only [prospect, told, kinds, answered, portraits, unanswered_facing same]
                exact .refl _
            | ok portrait =>
                rw [answered] at portraits
                have offspring : (surveyor.facing other).source.children current =
                    surveyor.source.children current := same.children
                rw [prospect_answered told answered, prospect_answered kinds portraits, offspring,
                  elementFace_facing same, elementReports_facing same, placeInside_facing same,
                  declarations_facing same]
                apply Tree.SameBut.outside
                apply List.rel_append
                · exact List.forall₂_same.mpr fun text _ => .refl text
                · rw [List.forall₂_map_left_iff, List.forall₂_map_right_iff, List.forall₂_same]
                  intro child listed
                  exact induction _ _ _ child (around.deeper here listed)
                    (also.deeper here (same.children ▸ listed))

/-- The document has the frame that the root view reports. -/
theorem documentSighting_eq (root : ViewHandle) :
    surveyor.documentSighting root =
      { key := ⟨root, .document⟩
        face :=
          { kind := .document
            frame := (surveyor.source.reportedFrame root).sanitize
            clip := (surveyor.source.reportedFrame root).sanitize } } := by
  have top := congrArg Placement.clip (surveyor.placeBelow_root root [])
  change (surveyor.rootPlace root).clip = (surveyor.source.reportedFrame root).sanitize at top
  rw [documentSighting, top]

theorem panorama_facing {root : ViewHandle} (once : surveyor.source.ReachesOnce root)
    (otherOnce : other.ReachesOnce root) (agrees : surveyor.source.AgreesBut other root view)
    (inside : view ≠ root) :
    Tree.SameBut (Sighting.key · = ⟨view, .view⟩) (surveyor.panorama root)
      ((surveyor.facing other).panorama root) := by
  have around := View.Introspector.around_root surveyor.source root view
  have also := View.Introspector.around_root other root view
  have same := agrees.around once otherOnce around also inside.symm
  have place : (surveyor.facing other).rootPlace root = surveyor.rootPlace root := by
    simp only [rootPlace, facing, same.frame]
  rw [panorama, panorama, documentSighting, documentSighting, place]
  exact .outside (.cons (prospect_sameBut once otherOnce agrees _ _ _ _ root around also) .nil)

end Surveyor

/-- The same document with another frame. -/
def reframed (frame : Rect) : Tree Sighting → Tree Sighting
  | .node top children =>
      .node { top with face := { top.face with frame, clip := frame } } children

/-- Whatever the hosts answer, below the document there is the subtree of the root view only. -/
theorem reframed_panorama (surveyor : Surveyor) (other : View.Introspector) (root : ViewHandle) :
    Tree.EqualOutside (Sighting.key · = ⟨root, .view⟩)
      (reframed (other.reportedFrame root).sanitize (surveyor.panorama root))
      ((surveyor.facing other).panorama root) := by
  let levels := surveyor.limits.maxDepth.toNat - 1
  let inner := surveyor.prospect levels 1 (surveyor.rootPlace root) [] root
  let replaced := (surveyor.facing other).prospect levels 1
    ((surveyor.facing other).rootPlace root) [] root
  have first : reframed (other.reportedFrame root).sanitize (surveyor.panorama root) =
      .node ((surveyor.facing other).documentSighting root) [inner] := by
    rw [Surveyor.panorama, reframed, Surveyor.documentSighting_eq, Surveyor.documentSighting_eq]
    rfl
  exact .inr ⟨[⟨(surveyor.facing other).documentSighting root, [], []⟩], inner, replaced, first,
    rfl, (Surveyor.shown_prospect levels _ _ _ _).key,
    (Surveyor.shown_prospect levels _ _ _ _).key⟩

/-- A capture with no more nodes than there is room for has seen everything. -/
theorem seen_whole {settings : Settings} {source : View.Introspector}
    {registry : Identity.Registry} {root : ViewHandle} {tick : UInt64}
    (room : (capture settings source registry root tick).tree.size ≤
      settings.limits.maxNodes.toNat) :
    (census settings source registry root).map Numbered.sighting =
      (settings.surveyor source).panorama root := by
  rw [size_tree_capture] at room
  rw [map_sighting_census]
  exact Surveyor.survey_whole (.inl room)

/-- Two hosts that answer alike about all views but one and those beneath it are seen alike outside
the subtree of that view, as long as there is room for everything. The subtree stands in the same
place. When it is that of the root view, the document has the frame of this view. -/
theorem capture_elsewhere (rules : Masking.Rules) (source other : View.Introspector)
    (root view : ViewHandle) (once : source.ReachesOnce root) (otherOnce : other.ReachesOnce root)
    (agrees : source.AgreesBut other root view) (registry ids : Identity.Registry)
    (tick now : UInt64)
    (finite : (capture { rules, limits := .unbounded } source registry root tick).tree.size <
      4294967295)
    (otherFinite : (capture { rules, limits := .unbounded } other ids root now).tree.size <
      4294967295) :
    let settings : Settings := { rules, limits := .unbounded }
    let seen := (census settings source registry root).map Numbered.sighting
    let seenOther := (census settings other ids root).map Numbered.sighting
    (census settings source registry root).map Numbered.node =
      (capture settings source registry root tick).tree ∧
    (census settings other ids root).map Numbered.node =
      (capture settings other ids root now).tree ∧
    (view ≠ root → Tree.EqualOutside (Sighting.key · = ⟨view, .view⟩) seen seenOther) ∧
    (view = root → Tree.EqualOutside (Sighting.key · = ⟨view, .view⟩)
      (reframed (other.reportedFrame root).sanitize seen) seenOther) := by
  intro settings seen seenOther
  have whole : seen = (settings.surveyor source).panorama root := seen_whole (Nat.le_of_lt finite)
  have wholeOther : seenOther = ((settings.surveyor source).facing other).panorama root :=
    seen_whole (Nat.le_of_lt otherFinite)
  refine ⟨map_node_census tick, map_node_census now, ?_, ?_⟩
  · intro inside
    have distinct : (Surveyor.keys seen).Nodup := by
      change (Surveyor.keys ((census settings source registry root).map _)).Nodup
      rw [map_sighting_census]
      exact Surveyor.survey_keys_nodup once
    rw [whole] at distinct
    rw [whole, wholeOther]
    exact (Surveyor.panorama_facing once otherOnce agrees inside).equalOutside distinct
  · rintro rfl
    rw [whole, wholeOther]
    exact reframed_panorama (settings.surveyor source) other view

/-- The gallery when its text does not tell its kind any more. -/
def gallery.closed : View.Introspector :=
  { gallery with kind := Function.update gallery.kind ⟨2⟩ (.error .detached) }

theorem gallery_closed_reachesOnce : gallery.closed.ReachesOnce ⟨1⟩ :=
  View.Introspector.reachesOnce_of_leaves (by decide) (by decide)

theorem capture_elsewhere_gallery :
    gallery.ReachesOnce ⟨1⟩ ∧ gallery.closed.ReachesOnce ⟨1⟩ ∧
    gallery.AgreesBut gallery.closed ⟨1⟩ ⟨2⟩ ∧
    (capture { limits := .unbounded } gallery .new ⟨1⟩ 0).tree.size < 4294967295 ∧
    (capture { limits := .unbounded } gallery.closed .new ⟨1⟩ 0).tree.size < 4294967295 ∧
    Tree.EqualOutside (Sighting.key · = ⟨⟨2⟩, .view⟩)
      ((census { limits := .unbounded } gallery .new ⟨1⟩).map Numbered.sighting)
      ((census { limits := .unbounded } gallery.closed .new ⟨1⟩).map Numbered.sighting) := by
  have agrees : gallery.AgreesBut gallery.closed ⟨1⟩ ⟨2⟩ := fun another different _ _ =>
    ⟨Function.update_of_ne different _ _, rfl, rfl, rfl, rfl, rfl, rfl, rfl, rfl, rfl⟩
  have finite : (capture { limits := .unbounded } gallery .new ⟨1⟩ 0).tree.size < 4294967295 := by
    decide +kernel
  have otherFinite :
      (capture { limits := .unbounded } gallery.closed .new ⟨1⟩ 0).tree.size < 4294967295 := by
    decide +kernel
  have outside := capture_elsewhere {} gallery gallery.closed ⟨1⟩ ⟨2⟩ gallery_reachesOnce
    gallery_closed_reachesOnce agrees .new .new 0 0 finite otherFinite
  exact ⟨gallery_reachesOnce, gallery_closed_reachesOnce, agrees, finite, otherFinite,
    outside.2.2.1 (by decide)⟩

/-- The gallery with another frame. -/
def gallery.framed : View.Introspector :=
  { gallery with frame := Function.update gallery.frame ⟨1⟩ (.ok ⟨0, 0, 20, 20⟩) }

/-- The root view is not confined to its subtree, for the document shows its frame. -/
theorem root_frame_elsewhere :
    ¬∀ (rules : Masking.Rules) (source other : View.Introspector) (root view : ViewHandle)
      (registry ids : Identity.Registry) (tick now : UInt64),
      source.ReachesOnce root → other.ReachesOnce root → source.AgreesBut other root view →
      (capture { rules, limits := .unbounded } source registry root tick).tree.size < 4294967295 →
      (capture { rules, limits := .unbounded } other ids root now).tree.size < 4294967295 →
      Tree.EqualOutside (Sighting.key · = ⟨view, .view⟩)
        ((census { rules, limits := .unbounded } source registry root).map Numbered.sighting)
        ((census { rules, limits := .unbounded } other ids root).map Numbered.sighting) := by
  intro confined
  have once : gallery.framed.ReachesOnce ⟨1⟩ :=
    View.Introspector.reachesOnce_of_leaves (by decide) (by decide)
  have agrees : gallery.AgreesBut gallery.framed ⟨1⟩ ⟨1⟩ := fun another different _ _ =>
    ⟨rfl, Function.update_of_ne different _ _, rfl, rfl, rfl, rfl, rfl, rfl, rfl, rfl⟩
  have outside := confined {} gallery gallery.framed ⟨1⟩ ⟨1⟩ .new .new 0 0 gallery_reachesOnce once
    agrees (by decide +kernel) (by decide +kernel)
  rw [map_sighting_census, map_sighting_census, Surveyor.survey_eq, Surveyor.survey_eq] at outside
  have same := outside.data (by decide)
  have frames := congrArg (Rect.x1 ∘ Face.frame ∘ Sighting.face) same
  simp only [Function.comp_apply, Tree.data, Surveyor.documentSighting_eq] at frames
  have differ : (0 : Float) ≠ 20 := by decide
  exact differ frames

end Capture

end SessionReplay
