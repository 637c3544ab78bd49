import SessionReplay.Proofs.Capture.Accounting
import SessionReplay.Proofs.Capture.Masking

/-!
Where what is captured of a view is put. The transforms of the views above it take its frame to the
document's plane, and it shows within their clips, each taken there by the transforms above it in
turn. Nothing else has a part in it: not the view's own transform and clip, and no view aside or
below.
-/

namespace SessionReplay

namespace View.Introspector

variable (source : Introspector)

/-- The frame that a view reports. -/
def reportedFrame (view : ViewHandle) : Rect := (source.frame view).toOption.getD .zero

/-- From the coordinates inside the last of the views on a way down to the document's plane. -/
def mapInside (above : List ViewHandle) : Affine :=
  (above.map source.transform).foldl (· * ·) .identity

/-- The clip that a view reports, on the document's plane. -/
def clipBelow? (above : List ViewHandle) (view : ViewHandle) : Option Rect :=
  match source.clip view with
  | .ok (some rect) => some ((source.mapInside above).boundingBox rect).sanitize
  | _ => none

/-- The clips that the views on a way down report, the outermost first. -/
def clipsInside (above : List ViewHandle) : List Rect :=
  (List.range above.length).filterMap fun place =>
    above[place]?.bind (source.clipBelow? (above.take place))

variable {source}

theorem mapInside_concat (above : List ViewHandle) (view : ViewHandle) :
    source.mapInside (above ++ [view]) = source.mapInside above * source.transform view := by
  rw [mapInside, List.map_append, List.foldl_append]
  rfl

theorem clipsInside_concat (above : List ViewHandle) (view : ViewHandle) :
    source.clipsInside (above ++ [view]) =
      source.clipsInside above ++ (source.clipBelow? above view).toList := by
  have before : ∀ place ∈ List.range above.length,
      (above ++ [view])[place]?.bind (source.clipBelow? ((above ++ [view]).take place)) =
        above[place]?.bind (source.clipBelow? (above.take place)) := by
    intro place member
    have inside := List.mem_range.mp member
    rw [List.getElem?_append_left inside, List.take_append_of_le_length (Nat.le_of_lt inside)]
  rw [clipsInside, List.length_append, List.length_singleton, List.range_succ,
    List.filterMap_append, List.filterMap_congr before, clipsInside]
  congr 1
  simp [List.filterMap_cons]
  cases source.clipBelow? above view <;> rfl

section Congruence

variable {other : Introspector} {above : List ViewHandle}

theorem mapInside_congr (moved : ∀ view ∈ above, other.transform view = source.transform view) :
    other.mapInside above = source.mapInside above := by
  have transforms : above.map other.transform = above.map source.transform :=
    List.map_congr_left moved
  unfold mapInside
  rw [transforms]

theorem clipsInside_congr (moved : ∀ view ∈ above, other.transform view = source.transform view)
    (clipped : ∀ view ∈ above, other.clip view = source.clip view) :
    other.clipsInside above = source.clipsInside above := by
  unfold clipsInside
  apply List.filterMap_congr
  intro place _
  cases there : above[place]? with
  | none => rw [Option.bind_none, Option.bind_none]
  | some view =>
      have outer : other.mapInside (above.take place) = source.mapInside (above.take place) :=
        mapInside_congr fun view member => moved view (List.mem_of_mem_take member)
      have own : other.clip view = source.clip view :=
        clipped view (List.mem_of_getElem? there)
      rw [Option.bind_some, Option.bind_some, clipBelow?, clipBelow?, outer, own]

end Congruence

end View.Introspector

namespace Capture

namespace Surveyor

variable {surveyor : Surveyor}

/-- The placement of the children of the last of the views on a way down. -/
def placeBelow (surveyor : Surveyor) (place : Placement) (above : List ViewHandle) : Placement :=
  above.foldl (fun place view => (surveyor.placeInside place view).1) place

/-- Below the root view a placement is the map from there, and what the clips leave of the root's
frame. -/
theorem placeBelow_root (root : ViewHandle) (above : List ViewHandle) :
    surveyor.placeBelow (surveyor.rootPlace root) above =
      { transform := surveyor.source.mapInside above
        clip := (surveyor.source.clipsInside above).foldl Rect.intersect
          (surveyor.source.reportedFrame root).sanitize } := by
  induction above using List.reverseRecOn with
  | nil =>
      rw [placeBelow, List.foldl_nil, rootPlace, View.Introspector.reportedFrame]
      cases surveyor.source.frame root <;> rfl
  | append_singleton above view induction =>
      have outer := congrArg (fun place => (surveyor.placeInside place view).1) induction
      rw [placeBelow, List.foldl_append, List.foldl_cons, List.foldl_nil]
      refine outer.trans ?_
      rw [View.Introspector.mapInside_concat, View.Introspector.clipsInside_concat,
        List.foldl_append, placeInside, View.Introspector.clipBelow?]
      cases surveyor.source.clip view with
      | error cause => rfl
      | ok clip => cases clip <;> rfl

theorem shownFrame_eq (place : Placement) (view : ViewHandle) :
    surveyor.shownFrame place view = place.frameOf (surveyor.source.reportedFrame view) := by
  rw [shownFrame, View.Introspector.reportedFrame]
  cases surveyor.source.frame view <;> rfl

/-- A branch that was seen from a placement ends where its views lead. -/
structure Rests (surveyor : Surveyor) (place : Placement) (branch : List Sighting)
    (last : Sighting) : Prop where
  ends : branch.getLast? = some last
  arrives : views branch ≠ []
  frame : last.face.frame =
    surveyor.shownFrame (surveyor.placeBelow place (views branch).dropLast) last.key.view
  clip : last.face.clip = (surveyor.placeBelow place (views branch).dropLast).clip
  text : last.key.role = .text → ∃ above wrapper, branch = above ++ [wrapper, last] ∧
    last.face.frame = wrapper.face.frame ∧ last.face.clip = wrapper.face.clip

theorem rests_alone {place : Placement} {view : ViewHandle} {sighting : Sighting}
    (key : sighting.key = ⟨view, .view⟩)
    (frame : sighting.face.frame = surveyor.shownFrame place view)
    (clip : sighting.face.clip = place.clip) :
    surveyor.Rests place [sighting] sighting where
  ends := rfl
  arrives := by simp [views, key]
  frame := by
    rw [views_cons key, frame, key]
    rfl
  clip := by
    rw [views_cons key, clip]
    rfl
  text := by
    intro role
    rw [key] at role
    contradiction

theorem rests_text {place : Placement} {view : ViewHandle} {sighting text : Sighting}
    (wrapper : surveyor.Rests place [sighting] sighting) (key : sighting.key = ⟨view, .view⟩)
    (textKey : text.key = ⟨view, .text⟩) (frame : text.face.frame = sighting.face.frame)
    (clip : text.face.clip = sighting.face.clip) :
    surveyor.Rests place [sighting, text] text := by
  have same : views [sighting, text] = views [sighting] := by
    simp [views, key, textKey]
  refine ⟨rfl, same ▸ wrapper.arrives, ?_, ?_, fun _ => ⟨[], sighting, rfl, frame, clip⟩⟩
  · rw [same, frame, wrapper.frame, key, textKey]
  · rw [same, clip, wrapper.clip]

theorem Rests.below {place : Placement} {view : ViewHandle} {sighting last : Sighting}
    {branch : List Sighting}
    (inner : surveyor.Rests (surveyor.placeInside place view).1 branch last)
    (key : sighting.key = ⟨view, .view⟩) : surveyor.Rests place (sighting :: branch) last where
  ends := by
    rw [List.getLast?_cons, inner.ends]
    rfl
  arrives := by
    rw [views_cons key]
    exact List.cons_ne_nil _ _
  frame := by
    rw [views_cons key, List.dropLast_cons_of_ne_nil inner.arrives]
    exact inner.frame
  clip := by
    rw [views_cons key, List.dropLast_cons_of_ne_nil inner.arrives]
    exact inner.clip
  text := by
    intro role
    obtain ⟨above, wrapper, rfl, same⟩ := inner.text role
    exact ⟨sighting :: above, wrapper, rfl, same⟩

theorem visit_rests (levels depth : Nat) (place : Placement) (inherited : List Masking)
    (view : ViewHandle) (tally : Tally) :
    ∀ branch ∈ (surveyor.visit levels depth place inherited view tally).1.branches,
      ∃ last, surveyor.Rests place branch last := by
  refine visit_tally_induction (motive := fun _ _ place _ _ _ tree _ => ∀ branch ∈ tree.branches,
    ∃ last, surveyor.Rests place branch last) ?limit ?untold ?unanswered ?element levels depth
    place inherited view tally
  case limit =>
    intro depth place inherited view tally branch member
    obtain rfl : branch = _ := by simpa [terminal, Tree.branches, Tree.branchesAll] using member
    exact ⟨_, rests_alone rfl rfl rfl⟩
  case untold =>
    intro levels depth place inherited view tally cause told branch member
    obtain rfl : branch = _ := by
      simpa [untold, placeholder, Tree.branches, Tree.branchesAll] using member
    exact ⟨_, rests_alone rfl rfl rfl⟩
  case unanswered =>
    intro levels depth place inherited view tally kind cause told answered branch member
    obtain rfl : branch = _ := by
      simpa [unanswered, placeholder, Tree.branches, Tree.branchesAll] using member
    exact ⟨_, rests_alone rfl rfl rfl⟩
  case element =>
    intro levels depth place inherited view tally kind portrait trees after told answered row
      face reports branch member
    have alone : surveyor.Rests place [{ key := ⟨view, .view⟩, face, reports }]
        { key := ⟨view, .view⟩, face, reports } := rests_alone rfl rfl rfl
    rcases Tree.mem_branches_node.mp member with rfl | ⟨child, inside, rest, under, rfl⟩
    · exact ⟨_, alone⟩
    · rcases List.mem_append.mp inside with text | visited
      · obtain ⟨shown, rfl⟩ := mem_textNodes text
        obtain rfl : rest = _ := by simpa [Tree.branches, Tree.branchesAll] using under
        exact ⟨_, rests_text alone rfl rfl rfl rfl⟩
      · obtain ⟨seen, -, all⟩ := row_forall₂ (fun _ tree => ∀ branch ∈ tree.branches,
            ∃ last, surveyor.Rests (surveyor.placeInside place view).1 branch last)
          (fun _ _ _ _ rests => rests)
          (fun view tally branch member => by
            obtain rfl : branch = _ := by
              simpa [terminal, Tree.branches, Tree.branchesAll] using member
            exact ⟨_, rests_alone rfl rfl rfl⟩) row
        obtain ⟨_, -, known⟩ := exists_of_forall₂ all visited
        obtain ⟨last, inner⟩ := known rest under
        exact ⟨last, inner.below rfl⟩

end Surveyor

/-- What the views on a way down from the root view make of the frame and the clip of a node. -/
structure Placed (source : View.Introspector) (root : ViewHandle) (above : List ViewHandle)
    (view : ViewHandle) (node : Node) : Prop where
  frame : node.frame =
    ((source.mapInside above).boundingBox (source.reportedFrame view)).sanitize
  clip : node.clip =
    (source.clipsInside above).foldl Rect.intersect (source.reportedFrame root).sanitize

/-- Only the frames of the view and of the root count, and the transforms and clips in between. -/
theorem Placed.congr {source other : View.Introspector} {root view : ViewHandle}
    {above : List ViewHandle} {node second : Node} (placed : Placed source root above view node)
    (also : Placed other root above view second)
    (moved : ∀ outer ∈ above, other.transform outer = source.transform outer)
    (clipped : ∀ outer ∈ above, other.clip outer = source.clip outer)
    (top : other.frame root = source.frame root) (own : other.frame view = source.frame view) :
    second.frame = node.frame ∧ second.clip = node.clip := by
  have frames : ∀ shown, other.frame shown = source.frame shown →
      other.reportedFrame shown = source.reportedFrame shown := by
    intro shown same
    rw [View.Introspector.reportedFrame, same, View.Introspector.reportedFrame]
  constructor
  · rw [also.frame, placed.frame, View.Introspector.mapInside_congr moved, frames view own]
  · rw [also.clip, placed.clip, View.Introspector.clipsInside_congr moved clipped, frames root top]

section Captured

variable (settings : Settings) (source : View.Introspector) (registry : Identity.Registry)
variable (root : ViewHandle)

omit settings source registry root in
/-- What was seen around the text at the end of a branch has its own number. -/
theorem wrapper_of_text {branch : List Numbered} {entry : Numbered} {before : List Sighting}
    {wrapper : Sighting}
    (seen : branch.map Numbered.sighting = before ++ [wrapper, entry.sighting])
    (last : branch.getLast? = some entry) :
    ∃ front shell, branch = front ++ [shell, entry] ∧ shell.sighting = wrapper := by
  obtain ⟨front, pair, rfl, -, both⟩ := List.map_eq_append_iff.mp seen
  obtain ⟨shell, others, rfl, same, rest⟩ := List.map_eq_cons_iff.mp both
  obtain ⟨final, none, rfl, -, empty⟩ := List.map_eq_cons_iff.mp rest
  obtain rfl := List.map_eq_nil_iff.mp empty
  obtain rfl : final = entry := by simpa using last
  exact ⟨front, shell, rfl, same⟩

theorem placed_branch {branch : List Numbered}
    (member : branch ∈ (census settings source registry root).branches) {entry : Numbered}
    (last : branch.getLast? = some entry) (role : entry.sighting.key.role ≠ .document) :
    ∃ above, views (branch.map Numbered.sighting) = above ++ [entry.sighting.key.view] ∧
      (above ++ [entry.sighting.key.view]).head? = some root ∧
      (above ++ [entry.sighting.key.view]).IsChain
        (fun outer inner => inner ∈ source.children outer) ∧
      Placed source root above entry.sighting.key.view entry.node ∧
      (entry.sighting.key.role = .text → ∃ before wrapper, branch = before ++ [wrapper, entry] ∧
        wrapper.sighting.key = ⟨entry.sighting.key.view, .view⟩ ∧
        entry.node.frame = wrapper.node.frame ∧ entry.node.clip = wrapper.node.clip) := by
  have seen := List.mem_map_of_mem (f := List.map Numbered.sighting) member
  rw [← Tree.branches_map, map_sighting_census, Surveyor.survey_eq] at seen
  rcases Tree.mem_branches_node.mp seen with alone | ⟨child, inside, rest, under, same⟩
  · have final := congrArg List.getLast? alone
    rw [List.getLast?_map, last] at final
    exact absurd (congrArg (·.key.role) (Option.some.inj final)) role
  · obtain rfl := List.mem_singleton.mp inside
    obtain ⟨sighting, way⟩ := (settings.surveyor source).visit_descends _ _ _ _ _ _ rest under
    obtain ⟨other, rests⟩ := (settings.surveyor source).visit_rests _ _ _ _ _ _ rest under
    obtain rfl : other = sighting := Option.some.inj (rests.ends.symm.trans way.ends)
    have final := congrArg List.getLast? same
    rw [List.getLast?_map, last, List.getLast?_cons, rests.ends] at final
    obtain rfl : entry.sighting = other := Option.some.inj final
    have shown : views (branch.map Numbered.sighting) = views rest := by
      rw [same]
      rfl
    have split : (views rest).dropLast ++ [entry.sighting.key.view] = views rest :=
      List.dropLast_append_getLast? _ way.arrives
    refine ⟨(views rest).dropLast, ?_, ?_, ?_, ?_, ?_⟩
    · rw [shown, split]
    · rw [split, way.starts]
    · rw [split]
      exact way.steps
    · have frame := rests.frame
      have clip := rests.clip
      rw [Surveyor.placeBelow_root] at frame clip
      rw [Surveyor.shownFrame_eq] at frame
      exact ⟨frame, clip⟩
    · intro text
      obtain ⟨above, wrapper, whole, wrapped, -⟩ := way.text text
      obtain ⟨before, outer, parted, frame, clip⟩ := rests.text text
      obtain ⟨rfl, pair⟩ := List.append_inj' (parted.symm.trans whole) rfl
      obtain rfl : outer = wrapper := (List.cons.inj pair).1
      rw [whole, ← List.cons_append] at same
      obtain ⟨front, shell, parts, rfl⟩ := wrapper_of_text same last
      exact ⟨front, shell, parts, wrapped, frame, clip⟩

end Captured

/-- The frame of what is captured of a view is taken to the document's plane by the transforms of
the views above it, the outermost last, and its clip is what their clips leave of the root's frame,
each taken there by the transforms above it in turn. A text has the frame and the clip of the
element around it. In any other capture in which the view is reached in the same way it has the same
frame and clip, when the frames of the view and of the root, and the transforms and clips of the
views above, are the same. -/
theorem capture_places (settings : Settings) (source : View.Introspector)
    (registry : Identity.Registry) (root : ViewHandle) (tick : UInt64) :
    (census settings source registry root).map Numbered.node =
      (capture settings source registry root tick).tree ∧
    ∀ branch ∈ (census settings source registry root).branches,
      ∀ entry, branch.getLast? = some entry → entry.sighting.key.role ≠ .document →
      ∃ above, views (branch.map Numbered.sighting) = above ++ [entry.sighting.key.view] ∧
        (above ++ [entry.sighting.key.view]).head? = some root ∧
        (above ++ [entry.sighting.key.view]).IsChain
          (fun outer inner => inner ∈ source.children outer) ∧
        Placed source root above entry.sighting.key.view entry.node ∧
        (entry.sighting.key.role = .text → ∃ before wrapper,
          branch = before ++ [wrapper, entry] ∧
          wrapper.sighting.key = ⟨entry.sighting.key.view, .view⟩ ∧
          entry.node.frame = wrapper.node.frame ∧ entry.node.clip = wrapper.node.clip) ∧
        ∀ (others : Settings) (host : View.Introspector) (ids : Identity.Registry),
          (∀ outer ∈ above, host.transform outer = source.transform outer ∧
            host.clip outer = source.clip outer) →
          host.frame root = source.frame root →
          host.frame entry.sighting.key.view = source.frame entry.sighting.key.view →
          ∀ way ∈ (census others host ids root).branches, ∀ last, way.getLast? = some last →
            last.sighting.key.role ≠ .document →
            views (way.map Numbered.sighting) = views (branch.map Numbered.sighting) →
            last.node.frame = entry.node.frame ∧ last.node.clip = entry.node.clip := by
  refine ⟨map_node_census tick, ?_⟩
  intro branch member entry final role
  obtain ⟨above, way, starts, steps, placed, text⟩ :=
    placed_branch settings source registry root member final role
  refine ⟨above, way, starts, steps, placed, text, ?_⟩
  intro others host ids alike top own branch' member' last final' role' same
  obtain ⟨outer, way', -, -, also, -⟩ := placed_branch others host ids root member' final' role'
  have both := way'.symm.trans (same.trans way)
  obtain ⟨rfl, view⟩ := List.append_inj' both rfl
  rw [List.singleton_inj.mp view] at also
  exact placed.congr also (fun view inside => (alike view inside).1)
    (fun view inside => (alike view inside).2) top own

end Capture

end SessionReplay
