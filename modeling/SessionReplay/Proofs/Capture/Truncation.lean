import SessionReplay.Proofs.Capture.Accounting

/-!
Where limits end the way down. Each such view has the mark and no children, and is reported once,
with its level. What the views tell as their attributes has no part in it.
-/

namespace SessionReplay

namespace Tree

variable {α : Type u} {β : Type v}

mutual

/-- The nodes in document order, each with the level that it is on. -/
def levelled : Tree α → (level : Nat) → List (α × Nat)
  | node data children, level => (data, level) :: levelledAll children (level + 1)

def levelledAll : List (Tree α) → (level : Nat) → List (α × Nat)
  | [], _ => []
  | tree :: trees, level => levelled tree level ++ levelledAll trees level

end

theorem levelledAll_eq_flatMap (trees : List (Tree α)) (level : Nat) :
    levelledAll trees level = trees.flatMap (·.levelled level) := by
  induction trees with
  | nil => rfl
  | cons tree trees induction => simp [levelledAll, induction]

theorem levelled_node (data : α) (children : List (Tree α)) (level : Nat) :
    (node data children).levelled level =
      (data, level) :: children.flatMap (·.levelled (level + 1)) := by
  rw [levelled, levelledAll_eq_flatMap]

theorem mem_levelled_node {data : α} {children : List (Tree α)} {level : Nat} {spot : α × Nat} :
    spot ∈ (node data children).levelled level ↔
      spot = (data, level) ∨ ∃ child ∈ children, spot ∈ child.levelled (level + 1) := by
  rw [levelled_node, List.mem_cons, List.mem_flatMap]

theorem map_fst_levelled (tree : Tree α) (level : Nat) :
    (tree.levelled level).map Prod.fst = tree.preorder := by
  induction tree using children_induction generalizing level with
  | step data children induction =>
      rw [levelled_node, preorder_node, List.map_cons, List.map_flatMap]
      exact congrArg _ (List.flatMap_congr fun child member => induction child member _)

theorem levelled_map (f : α → β) (tree : Tree α) (level : Nat) :
    (tree.map f).levelled level = (tree.levelled level).map (Prod.map f id) := by
  induction tree using children_induction generalizing level with
  | step data children induction =>
      rw [map_node, levelled_node, levelled_node, List.map_cons, List.map_flatMap, List.flatMap_map]
      exact congrArg _ (List.flatMap_congr fun child member => induction child member _)

theorem level_le {tree : Tree α} {level : Nat} {spot : α × Nat}
    (member : spot ∈ tree.levelled level) : spot.2 ≤ level + tree.height := by
  induction tree using children_induction generalizing level with
  | step data children induction =>
      rcases mem_levelled_node.mp member with rfl | ⟨child, listed, inside⟩
      · exact Nat.le_add_right _ _
      · have below := induction child listed inside
        have lower : child.height < (node data children).height := height_child listed
        omega

end Tree

/-- The tick, the view and the level in the report of a limit. -/
def Trace.Event.truncation? : Trace.Event → Option (UInt64 × ViewHandle × Nat)
  | truncation tick view _ depth => some (tick, view, depth.toNat)
  | _ => none

/-- A node apart from its looks. -/
def Node.stamp (node : Node) : NodeId × Bool := (node.id, node.kind.isTruncated)

namespace Capture

/-- The level of a view at which a limit was met. -/
def Report.cut? : Report → Option Nat
  | cut _ depth => some depth
  | failed _ => none

theorem truncation?_event (tick : UInt64) (view : ViewHandle) (report : Report) :
    (report.event tick view).truncation? =
      report.cut?.map fun depth => (tick, view, (Trace.capped depth).toNat) := by
  cases report <;> rfl

theorem cuts_answerOr {α : Type} (fallback : α) (stage : Trace.Stage) (answer : View.Answer α) :
    (answerOr fallback stage answer).2.filterMap Report.cut? = [] := by
  cases answer <;> rfl

/-- What a view is apart from its looks: for what it stands, whether it has the mark and what there
is to report of it. -/
def Sighting.outline (sighting : Sighting) : Identity.Key × Bool × List Report :=
  (sighting.key, sighting.marked, sighting.reports)

namespace Surveyor

variable {surveyor : Surveyor}

theorem cuts_faceReports (view : ViewHandle) :
    (surveyor.faceReports view).filterMap Report.cut? = [] := by
  rw [faceReports, List.filterMap_append, cuts_answerOr, cuts_answerOr]
  rfl

theorem cuts_elementReports (place : Placement) (view : ViewHandle) (kind : View.Kind) :
    (surveyor.elementReports place view kind).filterMap Report.cut? = [] := by
  have unknown : (unknownReports kind).filterMap Report.cut? = [] := by cases kind <;> rfl
  simp only [elementReports, placeInside, List.filterMap_append, cuts_answerOr, unknown,
    List.append_nil]

/-- A limit is reported once at each marked node, with the level of the node, and nowhere else. -/
def Tells (depth : Nat) (tree : Tree Sighting) : Prop :=
  ∀ spot ∈ tree.levelled depth,
    spot.1.reports.filterMap Report.cut? = if spot.1.marked then [spot.2] else []

theorem Tells.plain {depth : Nat} {sighting : Sighting} {children : List (Tree Sighting)}
    (plain : sighting.marked = false) (none : sighting.reports.filterMap Report.cut? = [])
    (below : ∀ child ∈ children, Tells (depth + 1) child) :
    Tells depth (.node sighting children) := by
  intro spot member
  rcases Tree.mem_levelled_node.mp member with rfl | ⟨child, listed, inside⟩
  · rw [none, plain]
    rfl
  · exact below child listed spot inside

theorem tells_terminal (limit : Trace.Limit) (depth : Nat) (place : Placement)
    (inherited : List Masking) (view : ViewHandle) (tally : Tally) :
    Tells depth (surveyor.terminal limit depth place inherited view tally).1 := by
  intro spot member
  rw [List.mem_singleton.mp member]
  simp [Report.cut?, Sighting.marked, marked_plainFace]

theorem tells_placeholder {reports : List Report} (none : reports.filterMap Report.cut? = [])
    (depth : Nat) (place : Placement) (inherited : List Masking) (view : ViewHandle) (frame : Rect)
    (paint : Paint) (tally : Tally) :
    Tells depth (surveyor.placeholder place inherited view frame paint reports tally).1 :=
  Tells.plain (by simp [Sighting.marked, marked_plainFace]) none (by simp)

theorem tells_visit (levels depth : Nat) (place : Placement) (inherited : List Masking)
    (view : ViewHandle) (tally : Tally) :
    Tells depth (surveyor.visit levels depth place inherited view tally).1 := by
  apply visit_tally_induction (motive := fun _ depth _ _ _ _ tree _ => Tells depth tree)
  case limit => exact fun _ _ _ _ _ => tells_terminal _ _ _ _ _ _
  case untold =>
    intro levels depth place inherited view tally cause told
    apply tells_placeholder
    rw [List.filterMap_cons_none rfl, cuts_faceReports]
  case unanswered =>
    intro levels depth place inherited view tally kind cause told answered
    apply tells_placeholder
    rw [List.filterMap_append, cuts_faceReports]
    rfl
  case element =>
    intro levels depth place inherited view tally kind portrait trees after told answered row
      face reports
    apply Tells.plain
    · exact marked_elementFace answered place inherited
    · exact cuts_elementReports place view kind
    · intro child member
      rcases List.mem_append.mp member with text | below
      · obtain ⟨content, rfl⟩ := mem_textNodes text
        exact Tells.plain rfl rfl (by simp)
      · obtain ⟨seen, -, all⟩ := row_forall₂ (fun _ => Tells (depth + 1))
          (fun _ _ _ _ tells => tells) (fun _ _ => tells_terminal _ _ _ _ _ _) row
        obtain ⟨view, -, tells⟩ := exists_of_forall₂ all below
        exact tells

theorem tells_survey (root : ViewHandle) : Tells 0 (surveyor.survey root).1 := by
  rw [survey_eq]
  apply Tells.plain rfl rfl
  intro child member
  rw [List.mem_singleton.mp member]
  exact tells_visit _ _ _ _ _ _

/-- Nothing is below a marked node. -/
def Ends (tree : Tree Sighting) : Prop :=
  ∀ part, Tree.Inside part tree → part.data.marked = true → part.children = []

theorem Ends.leaf (sighting : Sighting) : Ends (.node sighting []) := by
  intro part inside _
  cases inside with
  | itself => rfl
  | inner member => cases member

theorem Ends.plain {sighting : Sighting} {children : List (Tree Sighting)}
    (plain : sighting.marked = false) (below : ∀ child ∈ children, Ends child) :
    Ends (.node sighting children) := by
  intro part inside marked
  cases inside with
  | itself =>
      rw [Tree.data, plain] at marked
      contradiction
  | inner member inside => exact below _ member part inside marked

theorem ends_visit (levels depth : Nat) (place : Placement) (inherited : List Masking)
    (view : ViewHandle) (tally : Tally) :
    Ends (surveyor.visit levels depth place inherited view tally).1 := by
  apply visit_induction (motive := fun _ _ _ _ _ tree => Ends tree)
  case terminal => exact fun _ _ _ _ _ _ _ => Ends.leaf _
  case placeholder => exact fun _ _ _ _ _ _ _ _ _ _ => Ends.leaf _
  case element =>
    intro levels depth place inherited view kind portrait seen children told answered first below
      face reports
    apply Ends.plain
    · exact marked_elementFace answered place inherited
    intro child member
    rcases List.mem_append.mp member with text | inside
    · obtain ⟨content, rfl⟩ := mem_textNodes text
      exact Ends.leaf _
    · obtain ⟨view, -, ends⟩ := exists_of_forall₂ below inside
      exact ends

theorem ends_survey (root : ViewHandle) : Ends (surveyor.survey root).1 := by
  rw [survey_eq]
  apply Ends.plain rfl
  intro child member
  rw [List.mem_singleton.mp member]
  exact ends_visit _ _ _ _ _ _

/-- The same survey of views that tell other attributes. -/
def telling (surveyor : Surveyor) (attributes : ViewHandle → List (String × String)) : Surveyor :=
  { surveyor with source := { surveyor.source with attributes } }

/-- What was seen, and the tally, apart from the looks. -/
def outlined (seen : Tree Sighting × Tally) : Tree (Identity.Key × Bool × List Report) × Tally :=
  (seen.1.map Sighting.outline, seen.2)

variable {attributes : ViewHandle → List (String × String)}

/-- Whether a view gives its content, and what its text is, does not depend on its attributes. -/
theorem text_portrait_telling (surveyor : Surveyor)
    (attributes : ViewHandle → List (String × String)) (view : ViewHandle) (kind : View.Kind) :
    ((surveyor.telling attributes).portrait view kind).map Portrait.text =
      (surveyor.portrait view kind).map Portrait.text := by
  cases kind with
  | container => rfl
  | unknown name => rfl
  | text =>
      simp only [portrait, telling]
      cases surveyor.source.text view <;> rfl
  | input =>
      simp only [portrait, telling]
      cases surveyor.source.text view <;> rfl
  | image =>
      simp only [portrait, telling]
      cases surveyor.source.image view <;> rfl

theorem portrait_telling_error {view : ViewHandle} {kind : View.Kind}
    {cause : View.IntrospectionError} (failed : surveyor.portrait view kind = .error cause)
    (attributes : ViewHandle → List (String × String)) :
    (surveyor.telling attributes).portrait view kind = .error cause := by
  have texts := surveyor.text_portrait_telling attributes view kind
  rw [failed] at texts
  cases told : (surveyor.telling attributes).portrait view kind with
  | error other =>
      rw [told] at texts
      cases texts
      rfl
  | ok other =>
      rw [told] at texts
      contradiction

theorem portrait_telling_ok {view : ViewHandle} {kind : View.Kind} {portrait : Portrait}
    (answered : surveyor.portrait view kind = .ok portrait)
    (attributes : ViewHandle → List (String × String)) :
    ∃ other, (surveyor.telling attributes).portrait view kind = .ok other ∧
      other.text = portrait.text := by
  have texts := surveyor.text_portrait_telling attributes view kind
  rw [answered] at texts
  cases told : (surveyor.telling attributes).portrait view kind with
  | error cause =>
      rw [told] at texts
      contradiction
  | ok other =>
      rw [told] at texts
      exact ⟨other, rfl, Except.ok.inj texts⟩

theorem siblings_telling {visit stop visitOther stopOther : ViewHandle → Tally →
      Tree Sighting × Tally}
    (visited : ∀ view tally, outlined (visitOther view tally) = outlined (visit view tally))
    (stopped : ∀ view tally, outlined (stopOther view tally) = outlined (stop view tally))
    (views : List ViewHandle) (tally : Tally) :
    ((surveyor.telling attributes).siblings visitOther stopOther views tally).1.map
        (Tree.map Sighting.outline) =
        (surveyor.siblings visit stop views tally).1.map (Tree.map Sighting.outline) ∧
      ((surveyor.telling attributes).siblings visitOther stopOther views tally).2 =
        (surveyor.siblings visit stop views tally).2 := by
  induction views generalizing tally with
  | nil => exact ⟨rfl, rfl⟩
  | cons view views induction =>
      simp only [siblings]
      by_cases full : surveyor.limits.maxNodes.toNat ≤ tally.nodes
      · have fullOther : (surveyor.telling attributes).limits.maxNodes.toNat ≤ tally.nodes := full
        obtain ⟨shape, counted⟩ := Prod.mk.inj (stopped view tally)
        rw [if_pos full, if_pos fullOther]
        exact ⟨congrArg (fun tree => [tree]) shape, counted⟩
      · have fullOther : ¬(surveyor.telling attributes).limits.maxNodes.toNat ≤ tally.nodes := full
        obtain ⟨shape, counted⟩ := Prod.mk.inj (visited view tally)
        rw [if_neg full, if_neg fullOther, counted]
        obtain ⟨shapes, rest⟩ := induction (visit view tally).2
        exact ⟨congrArg₂ List.cons shape shapes, rest⟩

theorem outline_textNodes (view : ViewHandle) (face : Face) (text : Option String) :
    (textNodes view face text).map (Tree.map Sighting.outline) =
      text.toList.map fun _ => .node (⟨view, .text⟩, false, []) [] := by
  cases text <;> rfl

theorem below_telling {levels depth : Nat} {place : Placement} {inherited : List Masking}
    {view : ViewHandle} {portrait other : Portrait}
    (visited : ∀ place inherited view tally,
      outlined ((surveyor.telling attributes).visit levels (depth + 1) place inherited view tally) =
        outlined (surveyor.visit levels (depth + 1) place inherited view tally))
    (text : other.text = portrait.text) (kind : View.Kind) (tally : Tally) :
    ((surveyor.telling attributes).below levels depth place inherited view kind other tally).1.map
        (Tree.map Sighting.outline) =
        (surveyor.below levels depth place inherited view kind portrait tally).1.map
          (Tree.map Sighting.outline) ∧
      ((surveyor.telling attributes).below levels depth place inherited view kind other tally).2 =
        (surveyor.below levels depth place inherited view kind portrait tally).2 := by
  have counted : inspected depth kind other tally = inspected depth kind portrait tally := by
    rw [inspected, inspected, text]
  unfold below
  rw [counted]
  exact siblings_telling (visited _ _) (fun _ _ => rfl) _ _

/-- The attributes of views change nothing but the looks of what is seen. -/
theorem visit_telling (levels depth : Nat) (place : Placement) (inherited : List Masking)
    (view : ViewHandle) (tally : Tally) :
    outlined ((surveyor.telling attributes).visit levels depth place inherited view tally) =
      outlined (surveyor.visit levels depth place inherited view tally) := by
  induction levels generalizing depth place inherited view tally with
  | zero => rfl
  | succ levels induction =>
      cases told : surveyor.source.kind view with
      | error cause =>
          have toldOther : (surveyor.telling attributes).source.kind view = .error cause := told
          simp only [visit, told, toldOther]
          rfl
      | ok kind =>
          have toldOther : (surveyor.telling attributes).source.kind view = .ok kind := told
          cases answered : surveyor.portrait view kind with
          | error cause =>
              have failed := portrait_telling_error answered attributes
              simp only [visit, told, toldOther, answered, failed]
              rfl
          | ok portrait =>
              obtain ⟨other, answeredOther, text⟩ := portrait_telling_ok answered attributes
              -- Neither portrait has the mark, whatever the attributes are.
              have plain := marked_elementFace answered place inherited
              have plainOther := marked_elementFace answeredOther place inherited
              obtain ⟨shapes, counted⟩ := below_telling (induction (depth + 1)) text kind tally
              rw [visit_answered told answered, visit_answered toldOther answeredOther, outlined,
                outlined, counted]
              simp only [Tree.map_node, List.map_append, outline_textNodes, shapes, text,
                Sighting.outline, Sighting.marked, plain, plainOther]
              rfl

theorem survey_telling (surveyor : Surveyor) (attributes : ViewHandle → List (String × String))
    (root : ViewHandle) :
    outlined ((surveyor.telling attributes).survey root) = outlined (surveyor.survey root) := by
  have child : outlined ((surveyor.telling attributes).visit (surveyor.limits.maxDepth.toNat - 1) 1
      (surveyor.rootPlace root) [] root (Tally.count 0 {})) = _ := visit_telling _ _ _ _ _ _
  obtain ⟨shape, counted⟩ := Prod.mk.inj child
  rw [survey_eq, survey_eq]
  exact Prod.ext (congrArg (fun tree => Tree.node _ [tree]) shape) counted

end Surveyor

/-- The report of a limit at a node, if the node is marked. -/
def Numbered.cut? (tick : UInt64) (spot : Numbered × Nat) : Option (UInt64 × ViewHandle × Nat) :=
  if spot.1.node.kind.isTruncated then some (tick, spot.1.sighting.key.view, spot.2) else none

theorem truncations_events (tick : UInt64) (sighting : Sighting) :
    (sighting.events tick).filterMap Trace.Event.truncation? =
      (sighting.reports.filterMap Report.cut?).map fun depth =>
        (tick, sighting.key.view, (Trace.capped depth).toNat) := by
  rw [Sighting.events, List.filterMap_map, List.map_filterMap]
  exact List.filterMap_congr fun report _ => truncation?_event tick sighting.key.view report

/-- The numbering of what was seen, apart from the looks. -/
theorem mapAccum_outline (tree : Tree Sighting) (registry : Identity.Registry) :
    (tree.map Sighting.outline).mapAccum (fun outline registry =>
        (((registry.idFor outline.1).1, outline.2.1), (registry.idFor outline.1).2)) registry =
      ((tree.mapAccum number registry).1.map Node.stamp, (tree.mapAccum number registry).2) := by
  rw [Tree.map_then_mapAccum]
  exact Tree.mapAccum_map number Node.stamp tree registry

theorem events_outline (tick : UInt64) (tree : Tree Sighting) :
    (tree.map Sighting.outline).preorder.flatMap
        (fun outline => outline.2.2.map (Report.event tick outline.1.view)) =
      tree.preorder.flatMap (Sighting.events tick) := by
  rw [Tree.preorder_map, List.flatMap_map]
  rfl

section Capture

variable (settings : Settings) (source : View.Introspector) (registry : Identity.Registry)
variable (root : ViewHandle) (tick : UInt64)

/-- The nodes come first in the trace, and the totals last. -/
theorem trace_capture_eq :
    let outcome := capture settings source registry root tick
    let sighted := ((settings.surveyor source).survey root).1
    outcome.trace = sighted.preorder.flatMap (Sighting.events tick) ++
      [.identity tick (Trace.capped outcome.registry.size)
        (Trace.capped (sighted.mapAccum number registry.beginTick).2.endTick.1)
        outcome.registry.next,
       .capture tick outcome.stats.nodes outcome.stats.maxDepth outcome.stats.placeholders
        outcome.stats.truncated] := rfl

/-- What the trace of a capture tells of limits. -/
theorem truncations_capture :
    (capture settings source registry root tick).trace.filterMap Trace.Event.truncation? =
      ((census settings source registry root).levelled 0).filterMap (Numbered.cut? tick) := by
  have told : ∀ spot ∈ ((settings.surveyor source).survey root).1.levelled 0,
      (spot.1.events tick).filterMap Trace.Event.truncation? =
        (if spot.1.marked then some (tick, spot.1.key.view, spot.2) else none).toList := by
    intro spot member
    have level : (Trace.capped spot.2).toNat = spot.2 := by
      have deep := Tree.level_le member
      have height := (settings.surveyor source).height_survey_lt root
      rw [Trace.toNat_capped]
      omega
    rw [truncations_events, (settings.surveyor source).tells_survey root spot member]
    split
    · simp [level]
    · rfl
  -- The totals at the end of the trace tell of no limit.
  rw [trace_capture_eq, List.filterMap_append, List.filterMap_flatMap, ← Tree.map_fst_levelled _ 0,
    List.flatMap_map, List.flatMap_congr told, ← List.filterMap_eq_flatMap_toList,
    ← map_sighting_census registry, Tree.levelled_map, List.filterMap_map]
  exact List.append_nil _

/-- The attributes that views tell change nothing in a capture but the looks of its nodes. -/
theorem capture_telling (attributes : ViewHandle → List (String × String)) :
    let outcome := capture settings source registry root tick
    let other := capture settings { source with attributes } registry root tick
    other.tree.map Node.stamp = outcome.tree.map Node.stamp ∧ other.stats = outcome.stats ∧
      other.registry = outcome.registry ∧ other.trace = outcome.trace := by
  intro outcome other
  have seen : Surveyor.outlined ((settings.surveyor { source with attributes }).survey root) =
      Surveyor.outlined ((settings.surveyor source).survey root) :=
    (settings.surveyor source).survey_telling attributes root
  obtain ⟨shape, counted⟩ := Prod.mk.inj seen
  have numbered := mapAccum_outline ((settings.surveyor source).survey root).1 registry.beginTick
  have events := events_outline tick ((settings.surveyor source).survey root).1
  rw [← shape, mapAccum_outline] at numbered
  rw [← shape, events_outline] at events
  obtain ⟨stamps, issued⟩ := Prod.mk.inj numbered
  have stats : other.stats = outcome.stats := congrArg Tally.stats counted
  have known : other.registry = outcome.registry := congrArg (·.endTick.2) issued
  refine ⟨stamps, stats, known, ?_⟩
  rw [trace_capture_eq, trace_capture_eq, stats, known, issued, events]

theorem nodes_capture :
    let outcome := capture settings source registry root tick
    outcome.stats.nodes.toNat = min outcome.tree.size (UInt32.size - 1) := by
  have counted := ((settings.surveyor source).counted_survey root).nodes
  rw [Nat.zero_add, ← size_tree_capture settings source registry root tick] at counted
  exact (Trace.toNat_capped _).trans (congrArg (min · _) counted)

theorem maxDepth_capture :
    let outcome := capture settings source registry root tick
    outcome.stats.maxDepth.toNat = outcome.tree.height := by
  intro outcome
  have height := (settings.surveyor source).height_survey_lt root
  have counted := ((settings.surveyor source).counted_survey root).deepest
  rw [Nat.zero_add, Nat.zero_max] at counted
  rw [← counted] at height
  rw [height_tree_capture, ← counted]
  exact (Trace.toNat_capped _).trans (Nat.min_eq_left (Nat.le_sub_one_of_lt height))

theorem truncated_capture :
    let outcome := capture settings source registry root tick
    outcome.stats.truncated = true ↔
      ∃ node ∈ outcome.tree.preorder, node.kind.isTruncated = true := by
  intro outcome
  have counted := ((settings.surveyor source).counted_survey root).truncated
  rw [Bool.false_or] at counted
  have faces := congrArg (fun tree => tree.preorder.any (·.kind.isTruncated))
    (map_toFace_capture settings source registry root tick)
  simp only [Tree.preorder_map, List.any_map] at faces
  rw [← List.any_eq_true]
  exact Bool.eq_iff_iff.mp (counted.trans faces.symm)

/-- No node is below a marked one. -/
theorem children_capture {part : Tree Node}
    (inside : Tree.Inside part (capture settings source registry root tick).tree)
    (marked : part.data.kind.isTruncated = true) : part.children = [] := by
  rw [← map_node_census] at inside
  obtain ⟨known, within, rfl⟩ := Tree.inside_map.mp inside
  have seen : Tree.Inside (known.map Numbered.sighting)
      ((settings.surveyor source).survey root).1 := by
    rw [← map_sighting_census registry]
    exact Tree.inside_map.mpr ⟨known, within, rfl⟩
  rw [Tree.data_map] at marked
  have none := (settings.surveyor source).ends_survey root _ seen (by rwa [Tree.data_map])
  rw [Tree.children_map, List.map_eq_nil_iff] at none
  rw [Tree.children_map, none]
  rfl

theorem length_truncations_capture :
    let outcome := capture settings source registry root tick
    (outcome.trace.filterMap Trace.Event.truncation?).length =
      outcome.tree.preorder.countP (·.kind.isTruncated) := by
  intro outcome
  have marked : ∀ spot : Numbered × Nat,
      (Numbered.cut? tick spot).isSome = spot.1.node.kind.isTruncated := by
    intro spot
    rw [Numbered.cut?]
    cases spot.1.node.kind.isTruncated <;> rfl
  rw [truncations_capture, List.length_filterMap_eq_countP, ← map_node_census tick,
    Tree.preorder_map, ← Tree.map_fst_levelled _ 0, List.countP_map, List.countP_map]
  simp only [marked]
  rfl

/-- The totals of a capture are those of its tree. The nodes at which a limit ended the way down are
the marked ones: they have no children, and the trace tells of each, in document order, with its
view and its level, and of no others. No attributes that views may tell give a mark or take it away,
nor change anything in the totals and the trace. -/
theorem capture_accounted :
    let outcome := capture settings source registry root tick
    let known := census settings source registry root
    let truncations := outcome.trace.filterMap Trace.Event.truncation?
    outcome.stats.nodes.toNat = min outcome.tree.size (UInt32.size - 1) ∧
    outcome.stats.maxDepth.toNat = outcome.tree.height ∧
    (outcome.stats.truncated = true ↔
      ∃ node ∈ outcome.tree.preorder, node.kind.isTruncated = true) ∧
    (∀ part, Tree.Inside part outcome.tree → part.data.kind.isTruncated = true →
      part.children = []) ∧
    (known.map Numbered.node = outcome.tree ∧
      truncations = (known.levelled 0).filterMap (Numbered.cut? tick) ∧
      truncations.length = outcome.tree.preorder.countP (·.kind.isTruncated)) ∧
    ∀ attributes, let other := capture settings { source with attributes } registry root tick
      other.tree.map Node.stamp = outcome.tree.map Node.stamp ∧ other.stats = outcome.stats ∧
        other.registry = outcome.registry ∧ other.trace = outcome.trace := by
  intro outcome known truncations
  exact ⟨nodes_capture settings source registry root tick,
    maxDepth_capture settings source registry root tick,
    truncated_capture settings source registry root tick,
    fun part => children_capture settings source registry root tick,
    ⟨map_node_census tick, truncations_capture settings source registry root tick,
      length_truncations_capture settings source registry root tick⟩,
    capture_telling settings source registry root tick⟩

end Capture

end Capture

end SessionReplay
