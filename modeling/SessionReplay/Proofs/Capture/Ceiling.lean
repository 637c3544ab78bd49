import SessionReplay.Proofs.Capture.Naming
import SessionReplay.Proofs.Capture.Prospect
import SessionReplay.Proofs.Tree.Cutting

/-!
What a greatest depth changes. Above it everything is seen as without it. On it every view stands
in its place without its children, with the mark, and every text as it is.
-/

namespace SessionReplay.Capture

/-- A node of the whole tree and the face that is seen in its place when the tree is cut short. -/
inductive Shortened : Face × Option (List (Tree Face)) → Face → Prop
  | above (face : Face) : Shortened (face, none) face
  | text {face : Face} {content : String} {isStyle : Bool}
      (kind : face.kind = .text content isStyle) : Shortened (face, some []) face
  | view {face : Face} {element : Element} (kind : face.kind = .element element)
      (children : List (Tree Face)) (masked : Bool) :
      Shortened (face, some children)
        { kind :=
            .element
              { tag := .div
                attributes := (∅ : Attributes).insert truncationMark "true"
                style := Style.derived face.frame face.clip face.paint none }
          frame := face.frame
          clip := face.clip
          paint := face.paint
          masked }

namespace Surveyor

variable {surveyor : Surveyor}

/-- What is seen of a view at any level. -/
structure Shown (surveyor : Surveyor) (place : Placement) (view : ViewHandle)
    (sighting : Sighting) : Prop where
  key : sighting.key = ⟨view, .view⟩
  element : ∃ element, sighting.face.kind = .element element
  frame : sighting.face.frame = surveyor.shownFrame place view
  clip : sighting.face.clip = place.clip
  paint : sighting.face.paint = surveyor.shownPaint view

theorem shown_prospect (levels depth : Nat) (place : Placement) (inherited : List Masking)
    (view : ViewHandle) :
    surveyor.Shown place view (surveyor.prospect levels depth place inherited view).data := by
  cases levels with
  | zero => exact ⟨rfl, ⟨_, rfl⟩, rfl, rfl, rfl⟩
  | succ levels =>
      cases told : surveyor.source.kind view with
      | error cause =>
          simp only [prospect, told]
          exact ⟨rfl, ⟨_, rfl⟩, rfl, rfl, rfl⟩
      | ok kind =>
          cases answered : surveyor.portrait view kind with
          | error cause =>
              simp only [prospect, told, answered]
              exact ⟨rfl, ⟨_, rfl⟩, rfl, rfl, rfl⟩
          | ok portrait =>
              rw [prospect_answered told answered]
              exact ⟨rfl, ⟨_, rfl⟩, rfl, rfl, rfl⟩

theorem shortened_terminal {place : Placement} {view : ViewHandle} {whole : Tree Sighting}
    (shown : surveyor.Shown place view whole.data) (limit : Trace.Limit) (depth : Nat)
    (inherited : List Masking) (tally : Tally) :
    Tree.Matches Shortened ((whole.map Sighting.face).cut 0)
      ((surveyor.terminal limit depth place inherited view tally).1.map Sighting.face) := by
  obtain ⟨sighting, children⟩ := whole
  obtain ⟨-, ⟨element, kind⟩, frame, clip, paint⟩ := shown
  simp only [Tree.data] at kind frame clip paint
  have stub := Shortened.view kind (children.map (Tree.map Sighting.face))
    (surveyor.rules.resolve .container (surveyor.declarations view inherited))
  rw [Tree.map_node, Tree.cut]
  refine .node ?_ .nil
  rw [frame, clip, paint] at stub
  exact stub

theorem shortened_leaf (levels : Nat) (face : Face) :
    Tree.Matches Shortened ((Tree.node face []).cut (levels + 1)) (.node face []) :=
  .node (.above face) .nil

theorem shortened_textNodes (levels : Nat) (view : ViewHandle) (face : Face)
    (text : Option String) :
    List.Forall₂ (Tree.Matches Shortened)
      (((textNodes view face text).map (Tree.map Sighting.face)).map (Tree.cut levels))
      ((textNodes view face text).map (Tree.map Sighting.face)) := by
  cases text with
  | none => exact .nil
  | some content =>
      refine .cons ?_ .nil
      cases levels with
      | zero => exact .node (.text rfl) .nil
      | succ levels => exact shortened_leaf levels _

theorem prospect_shortened (surveyor : Surveyor) (levels more depth : Nat) (place : Placement)
    (inherited : List Masking) (view : ViewHandle) :
    Tree.Matches Shortened
      (((surveyor.prospect (levels + more) depth place inherited view).map
        Sighting.face).cut levels)
      ((surveyor.prospect levels depth place inherited view).map Sighting.face) := by
  induction levels generalizing depth place inherited view with
  | zero => exact shortened_terminal (shown_prospect _ _ _ _ _) _ _ _ _
  | succ levels induction =>
      rw [Nat.add_right_comm]
      cases told : surveyor.source.kind view with
      | error cause =>
          simp only [prospect, told]
          exact shortened_leaf levels _
      | ok kind =>
          cases answered : surveyor.portrait view kind with
          | error cause =>
              simp only [prospect, told, answered]
              exact shortened_leaf levels _
          | ok portrait =>
              rw [prospect_answered told answered, prospect_answered told answered, Tree.map_node,
                Tree.map_node, Tree.cut, List.map_append, List.map_append, List.map_append]
              refine .node (.above _) (List.rel_append (shortened_textNodes _ _ _ _) ?_)
              simp only [List.map_map, List.forall₂_map_left_iff, List.forall₂_map_right_iff,
                List.forall₂_same]
              intro child _
              exact induction _ _ _ child

/-- What there is to see down to a lower depth is what there is to see, cut short. -/
theorem panorama_shortened (surveyor : Surveyor) {limits : Limits} (some : 1 ≤ limits.maxDepth)
    (lower : limits.maxDepth ≤ surveyor.limits.maxDepth) (root : ViewHandle) :
    Tree.Matches Shortened
      (((surveyor.panorama root).map Sighting.face).cut limits.maxDepth.toNat)
      ((Surveyor.panorama { surveyor with limits } root).map Sighting.face) := by
  have first : 1 ≤ limits.maxDepth.toNat := UInt32.le_iff_toNat_le.mp some
  have below : limits.maxDepth.toNat ≤ surveyor.limits.maxDepth.toNat :=
    UInt32.le_iff_toNat_le.mp lower
  obtain ⟨levels, level⟩ := Nat.exists_eq_add_of_le' first
  obtain ⟨more, rest⟩ := Nat.exists_eq_add_of_le below
  have whole : surveyor.limits.maxDepth.toNat - 1 = levels + more := by omega
  have child := surveyor.prospect_shortened levels more 1 (surveyor.rootPlace root) [] root
  rw [← prospect_limits limits levels] at child
  simp only [panorama, level, whole, Nat.add_sub_cancel, Tree.map_node, Tree.cut, List.map_cons,
    List.map_nil]
  exact .node (.above _) (.cons child .nil)

theorem size_panorama_limits (surveyor : Surveyor) {limits : Limits} (some : 1 ≤ limits.maxDepth)
    (lower : limits.maxDepth ≤ surveyor.limits.maxDepth) (root : ViewHandle) :
    (Surveyor.panorama { surveyor with limits } root).size ≤ (surveyor.panorama root).size := by
  have cut := (surveyor.panorama_shortened some lower root).size
  rw [Tree.size_map] at cut
  rw [← cut, ← Tree.size_map Sighting.face (surveyor.panorama root)]
  exact Tree.size_cut_le _ _

/-- A lower depth leaves room for everything when there was room for it. -/
theorem survey_shortened (surveyor : Surveyor) (limits : Limits) (some : 1 ≤ limits.maxDepth)
    (lower : limits.maxDepth ≤ surveyor.limits.maxDepth)
    (more : surveyor.limits.maxNodes ≤ limits.maxNodes) {root : ViewHandle}
    (room : (surveyor.survey root).1.size ≤ surveyor.limits.maxNodes.toNat) :
    Tree.Matches Shortened
      (((surveyor.survey root).1.map Sighting.face).cut limits.maxDepth.toNat)
      ((Surveyor.survey { surveyor with limits } root).1.map Sighting.face) := by
  have whole := survey_whole (.inl room)
  rw [whole] at room
  have fewer := surveyor.size_panorama_limits some lower root
  have space := UInt32.le_iff_toNat_le.mp more
  have short : (Surveyor.survey { surveyor with limits } root).1 =
      Surveyor.panorama { surveyor with limits } root :=
    survey_whole (.inr (Nat.le_trans fewer (Nat.le_trans room space)))
  rw [whole, short]
  exact surveyor.panorama_shortened some lower root

end Surveyor

/-- A greatest depth only prunes. What is captured without limits, when it stays below the greatest
number of nodes, is captured with a greatest depth in the same place and with the same face above
that depth. On it every text is the same, every other node has its frame, clip and paint but no
children and the mark alone, and nothing is captured below. -/
theorem capture_shortened (rules : Masking.Rules) (source : View.Introspector)
    (registry ids : Identity.Registry) (root : ViewHandle) (tick now : UInt64) (levels : UInt32)
    (some : 1 ≤ levels)
    (finite : (capture { rules, limits := .unbounded } source registry root tick).tree.size <
      4294967295) :
    Tree.Matches Shortened
      (((capture { rules, limits := .unbounded } source registry root tick).tree.map
        Node.toFace).cut levels.toNat)
      ((capture { rules, limits := ⟨levels, 4294967295⟩ } source ids root now).tree.map
        Node.toFace) := by
  have deepest : levels ≤ 4294967295 := by
    rw [UInt32.le_iff_toNat_le]
    exact Nat.le_of_lt_succ levels.toNat_lt
  rw [size_tree_capture] at finite
  rw [map_toFace_capture, map_toFace_capture]
  exact Surveyor.survey_shortened { source, rules, limits := .unbounded }
    ⟨levels, 4294967295⟩ some deepest (UInt32.le_refl _) (Nat.le_of_lt finite)

theorem capture_shortened_gallery :
    (1 : UInt32) ≤ 2 ∧
    (capture { limits := .unbounded } gallery .new ⟨1⟩ 0).tree.size < 4294967295 ∧
    Tree.Matches Shortened
      (((capture { limits := .unbounded } gallery .new ⟨1⟩ 0).tree.map Node.toFace).cut 2)
      ((capture { limits := ⟨2, 4294967295⟩ } gallery .new ⟨1⟩ 0).tree.map Node.toFace) := by
  have finite : (capture { limits := .unbounded } gallery .new ⟨1⟩ 0).tree.size < 4294967295 := by
    decide +kernel
  exact ⟨by decide, finite, capture_shortened {} gallery .new .new ⟨1⟩ 0 0 2 (by decide) finite⟩

end SessionReplay.Capture
