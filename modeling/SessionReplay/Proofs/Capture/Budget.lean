import SessionReplay.Proofs.Capture.Accounting

/-!
How far a survey goes. The walk through the views is stated as it is made: it ends at a view that is
as deep as the limits allow, whatever views are below, and each of its counters has a place for the
next number where it goes up. Every survey is such a walk, and the only one. Every open level adds
one node at most once the nodes are as many as the limits allow.
-/

namespace SessionReplay.Capture

namespace Surveyor

variable {surveyor : Surveyor}

mutual

/-- The walk from a view down, with the tally before and after. Levels and counts are numbers of 32
bits. The levels and the count of placeholders are never the greatest one when they go up, and the
count of nodes stays at it. -/
inductive Walks (surveyor : Surveyor) : (depth : Nat) → Placement → (inherited : List Masking) →
    ViewHandle → Tally → Tree Sighting → Tally → Prop
  | limit {depth : Nat} {place : Placement} {inherited : List Masking} {view : ViewHandle}
      {tally : Tally} (deep : surveyor.limits.maxDepth.toNat ≤ depth) :
      Walks surveyor depth place inherited view tally
        (surveyor.terminal .depth depth place inherited view tally).1
        (surveyor.terminal .depth depth place inherited view tally).2
  | untold {depth : Nat} {place : Placement} {inherited : List Masking} {view : ViewHandle}
      {tally : Tally} {cause : View.IntrospectionError}
      (more : depth < surveyor.limits.maxDepth.toNat)
      (told : surveyor.source.kind view = .error cause)
      (room : tally.placeholders + 1 < UInt32.size) :
      Walks surveyor depth place inherited view tally
        (surveyor.untold depth place inherited view tally).1
        (surveyor.untold depth place inherited view tally).2
  | unanswered {depth : Nat} {place : Placement} {inherited : List Masking} {view : ViewHandle}
      {tally : Tally} {kind : View.Kind} {cause : View.IntrospectionError}
      (more : depth < surveyor.limits.maxDepth.toNat)
      (told : surveyor.source.kind view = .ok kind)
      (answered : surveyor.portrait view kind = .error cause)
      (room : tally.placeholders + 1 < UInt32.size) :
      Walks surveyor depth place inherited view tally
        (surveyor.unanswered depth place inherited view tally).1
        (surveyor.unanswered depth place inherited view tally).2
  | element {depth : Nat} {place : Placement} {inherited : List Masking} {view : ViewHandle}
      {tally after : Tally} {kind : View.Kind} {portrait : Portrait} {trees : List (Tree Sighting)}
      (more : depth < surveyor.limits.maxDepth.toNat)
      (told : surveyor.source.kind view = .ok kind)
      (answered : surveyor.portrait view kind = .ok portrait)
      (room : (inspected depth kind portrait tally).placeholders < UInt32.size)
      (deeper : depth + 1 < UInt32.size)
      (below : WalksAll surveyor (depth + 1) (surveyor.placeInside place view).1
        (surveyor.declarations view inherited) (surveyor.source.children view)
        (inspected depth kind portrait tally) trees after) :
      Walks surveyor depth place inherited view tally
        (.node
          { key := ⟨view, .view⟩
            face := surveyor.elementFace place inherited view kind portrait
            reports := surveyor.elementReports place view kind }
          (textNodes view (surveyor.elementFace place inherited view kind portrait) portrait.text ++
            trees))
        after

inductive WalksAll (surveyor : Surveyor) : (depth : Nat) → Placement → (inherited : List Masking) →
    List ViewHandle → Tally → List (Tree Sighting) → Tally → Prop
  | done {depth : Nat} {place : Placement} {inherited : List Masking} {tally : Tally} :
      WalksAll surveyor depth place inherited [] tally [] tally
  | last {depth : Nat} {place : Placement} {inherited : List Masking} {view : ViewHandle}
      {views : List ViewHandle} {tally : Tally}
      (room : surveyor.limits.maxNodes ≤ Trace.capped tally.nodes) :
      WalksAll surveyor depth place inherited (view :: views) tally
        [(surveyor.terminal .nodeBudget depth place inherited view tally).1]
        (surveyor.terminal .nodeBudget depth place inherited view tally).2
  | next {depth : Nat} {place : Placement} {inherited : List Masking} {view : ViewHandle}
      {views : List ViewHandle} {tally middle after : Tally} {tree : Tree Sighting}
      {trees : List (Tree Sighting)} (room : Trace.capped tally.nodes < surveyor.limits.maxNodes)
      (first : Walks surveyor depth place inherited view tally tree middle)
      (rest : WalksAll surveyor depth place inherited views middle trees after) :
      WalksAll surveyor depth place inherited (view :: views) tally (tree :: trees) after

end

/-- The count of nodes decides whether there is room for another also when it stays at the greatest
number. -/
theorem full_iff (tally : Tally) :
    surveyor.limits.maxNodes ≤ Trace.capped tally.nodes ↔ surveyor.Full tally := by
  have bound := surveyor.limits.maxNodes.toNat_lt
  rw [UInt32.le_iff_toNat_le, Trace.toNat_capped, Full, UInt32.size]
  omega

theorem siblings_of_walksAll {depth : Nat} {place : Placement} {inherited : List Masking}
    {visit : ViewHandle → Tally → Tree Sighting × Tally}
    (each : ∀ {view tally tree after}, Walks surveyor depth place inherited view tally tree after →
      visit view tally = (tree, after))
    {views : List ViewHandle} {tally after : Tally} {trees : List (Tree Sighting)}
    (walks : WalksAll surveyor depth place inherited views tally trees after) :
    surveyor.siblings visit (surveyor.terminal .nodeBudget depth place inherited) views tally =
      (trees, after) := by
  induction views generalizing tally trees with
  | nil =>
      cases walks
      rfl
  | cons view views induction =>
      cases walks with
      | last room =>
          have full : surveyor.limits.maxNodes.toNat ≤ tally.nodes := (full_iff tally).mp room
          rw [siblings, if_pos full]
      | next room first rest =>
          have more : ¬surveyor.limits.maxNodes.toNat ≤ tally.nodes :=
            mt (full_iff tally).mpr (UInt32.not_le.mpr room)
          simp only [siblings, if_neg more, each first, induction rest]

/-- Nothing else than what a visit leaves can come out of a walk. -/
theorem visit_of_walks {depth : Nat} {place : Placement} {inherited : List Masking}
    {view : ViewHandle} {tally after : Tally} {tree : Tree Sighting}
    (walks : Walks surveyor depth place inherited view tally tree after) :
    surveyor.visit (surveyor.limits.maxDepth.toNat - depth) depth place inherited view tally =
      (tree, after) := by
  generalize levelled : surveyor.limits.maxDepth.toNat - depth = levels
  induction levels generalizing depth place inherited view tally tree after with
  | zero =>
      cases walks with
      | limit deep => rfl
      | untold more => omega
      | unanswered more => omega
      | element more => omega
  | succ levels induction =>
      cases walks with
      | limit deep => omega
      | untold more told =>
          simp only [visit, told]
          rfl
      | unanswered more told answered =>
          simp only [visit, told, answered]
          rfl
      | element more told answered room deeper all =>
          have below := siblings_of_walksAll (fun walks => induction walks (by omega)) all
          rw [visit_answered told answered, Surveyor.below, below]

/-- The number of nodes from which on no more views are visited. The root view comes second. -/
def budget (surveyor : Surveyor) : Nat := max surveyor.limits.maxNodes.toNat 2

/-- Every placeholder is a node besides the document, and one that there was room for. -/
structure Fits (surveyor : Surveyor) (tally : Tally) : Prop where
  counted : tally.placeholders + 1 ≤ tally.nodes
  within : tally.placeholders + 1 ≤ surveyor.budget

theorem Fits.room {tally : Tally} (fits : surveyor.Fits tally) :
    tally.placeholders + 1 < UInt32.size := by
  have within := fits.within
  have bound := surveyor.limits.maxNodes.toNat_lt
  rw [budget] at within
  rw [UInt32.size]
  omega

theorem Fits.count {tally : Tally} (fits : surveyor.Fits tally) (depth : Nat) :
    surveyor.Fits (tally.count depth) :=
  ⟨Nat.le_succ_of_le fits.counted, fits.within⟩

theorem Fits.terminal {tally : Tally} (fits : surveyor.Fits tally) (limit : Trace.Limit)
    (depth : Nat) (place : Placement) (inherited : List Masking) (view : ViewHandle) :
    surveyor.Fits (surveyor.terminal limit depth place inherited view tally).2 :=
  ⟨Nat.le_succ_of_le fits.counted, fits.within⟩

/-- A view that there is room for may become a placeholder. -/
theorem Fits.placeholder {tally : Tally} (fits : surveyor.Fits tally)
    (room : tally.nodes < surveyor.budget) (depth : Nat) :
    surveyor.Fits (tally.count depth).placeholder :=
  ⟨Nat.succ_le_succ fits.counted, Nat.le_trans (Nat.succ_le_succ fits.counted) room⟩

theorem Fits.inspected {tally : Tally} (fits : surveyor.Fits tally)
    (room : tally.nodes < surveyor.budget) (depth : Nat) (kind : View.Kind) (portrait : Portrait) :
    surveyor.Fits (inspected depth kind portrait tally) := by
  unfold Surveyor.inspected
  dsimp only
  have noted : surveyor.Fits (if (unknownReports kind).isEmpty then tally.count depth
      else (tally.count depth).placeholder) := by
    split
    · exact fits.count depth
    · exact fits.placeholder room depth
  split
  · exact noted
  · exact noted.count (depth + 1)

/-- A walk from a view that there is room for. -/
structure Bounded (surveyor : Surveyor) (depth : Nat) (place : Placement)
    (inherited : List Masking) (view : ViewHandle) (tally : Tally) (tree : Tree Sighting)
    (after : Tally) : Prop where
  walks : Walks surveyor depth place inherited view tally tree after
  fits : surveyor.Fits after
  nodes : after.nodes ≤ surveyor.budget + tree.height + 1

/-- The nodes on a level and below are as many more than the budget as there are levels, and one
for the view at which the budget ends the level. -/
theorem bounded_row {depth : Nat} {place : Placement} {inherited : List Masking}
    {visited : ViewHandle → Tally → Tree Sighting → Tally → Prop}
    (each : ∀ view tally tree after, visited view tally tree after → surveyor.Fits tally →
      tally.nodes < surveyor.budget → Bounded surveyor depth place inherited view tally tree after)
    {views : List ViewHandle} {tally after : Tally} {trees : List (Tree Sighting)}
    (row : Row surveyor.Full (surveyor.terminal .nodeBudget depth place inherited) visited views
      tally trees after) (fits : surveyor.Fits tally) {levels : Nat}
    (nodes : tally.nodes ≤ surveyor.budget + levels) :
    WalksAll surveyor depth place inherited views tally trees after ∧ surveyor.Fits after ∧
      after.nodes ≤ surveyor.budget + max levels (Tree.heightAll trees) + 1 := by
  induction row generalizing levels with
  | done tally => exact ⟨.done, fits, by omega⟩
  | @last view views tally room =>
      refine ⟨.last ((full_iff tally).mpr room), fits.terminal _ _ _ _ _, ?_⟩
      simp only [terminal, Tally.truncate, Tally.count]
      omega
  | @next view views tally middle after tree trees room first _ induction =>
      have more : tally.nodes < surveyor.budget := by
        rw [Full] at room
        rw [budget]
        omega
      have bounded := each view tally tree middle first fits more
      have count := bounded.nodes
      have grown : middle.nodes ≤ surveyor.budget + max levels (tree.height + 1) := by omega
      obtain ⟨rest, restFits, restNodes⟩ := induction bounded.fits grown
      refine ⟨.next ?_ bounded.walks rest, restFits, ?_⟩
      · rw [← UInt32.not_le]
        exact mt (full_iff tally).mp room
      · rw [Tree.heightAll]
        omega

/-- The text of a view that there is room for is one level more. -/
theorem nodes_inspected {tally : Tally} (room : tally.nodes < surveyor.budget) (depth : Nat)
    (view : ViewHandle) (face : Face) (kind : View.Kind) (portrait : Portrait) :
    (inspected depth kind portrait tally).nodes ≤
      surveyor.budget + Tree.heightAll (textNodes view face portrait.text) := by
  have texts := (counted_texts depth view face kind portrait tally).nodes
  have one : Tree.sizeAll (textNodes view face portrait.text) =
      Tree.heightAll (textNodes view face portrait.text) := by
    cases portrait.text <;> rfl
  rw [texts, one]
  simp only [Tally.count]
  omega

theorem bounded_visit (levels depth : Nat) (place : Placement) (inherited : List Masking)
    (view : ViewHandle) (tally : Tally) (left : levels = surveyor.limits.maxDepth.toNat - depth)
    (fits : surveyor.Fits tally) (room : tally.nodes < surveyor.budget) :
    Bounded surveyor depth place inherited view tally
      (surveyor.visit levels depth place inherited view tally).1
      (surveyor.visit levels depth place inherited view tally).2 := by
  revert left fits room
  apply visit_tally_induction (motive := fun levels depth place inherited view tally tree after =>
    levels = surveyor.limits.maxDepth.toNat - depth → surveyor.Fits tally →
      tally.nodes < surveyor.budget →
      Bounded surveyor depth place inherited view tally tree after)
  case limit =>
    intro depth place inherited view tally left fits room
    refine ⟨.limit (by omega), fits.terminal _ _ _ _ _, ?_⟩
    simp only [terminal, Tally.truncate, Tally.count]
    omega
  case untold =>
    intro levels depth place inherited view tally cause told left fits room
    refine ⟨.untold (by omega) told fits.room, fits.placeholder room depth, ?_⟩
    simp only [Surveyor.untold, placeholder, Tally.placeholder, Tally.count]
    omega
  case unanswered =>
    intro levels depth place inherited view tally kind cause told answered left fits room
    refine ⟨.unanswered (by omega) told answered fits.room, fits.placeholder room depth, ?_⟩
    simp only [Surveyor.unanswered, placeholder, Tally.placeholder, Tally.count]
    omega
  case element =>
    intro levels depth place inherited view tally kind portrait trees after told answered row
      face reports left fits room
    have inside := fits.inspected room depth kind portrait
    have nodes := nodes_inspected room depth view face kind portrait
    have deeper : depth + 1 < UInt32.size := by
      have bound := surveyor.limits.maxDepth.toNat_lt
      rw [UInt32.size]
      omega
    obtain ⟨below, belowFits, belowNodes⟩ := bounded_row
      (fun view tally tree after known fits room => known (by omega) fits room) row inside nodes
    have room := Nat.lt_of_succ_lt inside.room
    refine ⟨.element (by omega) told answered room deeper below, belowFits, ?_⟩
    rw [Tree.height, Tree.heightAll_append]
    exact belowNodes

/-- A survey as it is walked. -/
def Surveys (surveyor : Surveyor) (root : ViewHandle) (sighted : Tree Sighting) (tally : Tally) :
    Prop :=
  ∃ child, Walks surveyor 1 (surveyor.rootPlace root) [] root (Tally.count 0 {}) child tally ∧
    sighted = .node (surveyor.documentSighting root) [child]

theorem survey_of_surveys {root : ViewHandle} {sighted : Tree Sighting} {tally : Tally}
    (surveys : surveyor.Surveys root sighted tally) : surveyor.survey root = (sighted, tally) := by
  obtain ⟨child, walks, rfl⟩ := surveys
  rw [survey_eq, visit_of_walks walks]

theorem bounded_root (surveyor : Surveyor) (root : ViewHandle) :
    Bounded surveyor 1 (surveyor.rootPlace root) [] root (Tally.count 0 {})
      (surveyor.visit (surveyor.limits.maxDepth.toNat - 1) 1 (surveyor.rootPlace root) [] root
        (Tally.count 0 {})).1
      (surveyor.visit (surveyor.limits.maxDepth.toNat - 1) 1 (surveyor.rootPlace root) [] root
        (Tally.count 0 {})).2 := by
  have some : 2 ≤ surveyor.budget := Nat.le_max_right _ _
  exact bounded_visit _ _ _ _ _ _ rfl ⟨Nat.le_refl _, Nat.le_of_lt some⟩ some

theorem surveys_survey (surveyor : Surveyor) (root : ViewHandle) :
    surveyor.Surveys root (surveyor.survey root).1 (surveyor.survey root).2 :=
  ⟨_, (surveyor.bounded_root root).walks, rfl⟩

theorem size_survey (surveyor : Surveyor) (root : ViewHandle) :
    (surveyor.survey root).1.size ≤ surveyor.budget + (surveyor.survey root).1.height := by
  have within := (surveyor.bounded_root root).nodes
  have nodes := (surveyor.counted_survey root).nodes
  rw [Nat.zero_add] at nodes
  rw [← nodes, survey_eq, Tree.height, Tree.heightAll, Tree.heightAll, Nat.max_zero,
    ← Nat.add_assoc]
  exact within

end Surveyor

/-- The walk through the views of any host ends, whatever the limits are and also when views are
reached again from below, and it ends with what is captured. The tree has no more levels than the
limits allow, and no more nodes than they allow besides one for each level. No counter goes
round. -/
theorem capture_bounded (settings : Settings) (source : View.Introspector)
    (registry : Identity.Registry) (root : ViewHandle) (tick : UInt64) :
    let outcome := capture settings source registry root tick
    (∃ sighted tally, (settings.surveyor source).Surveys root sighted tally ∧
      (∀ other later, (settings.surveyor source).Surveys root other later →
        other = sighted ∧ later = tally) ∧
      outcome.tree.map Node.toFace = sighted.map Sighting.face ∧ outcome.stats = tally.stats ∧
      tally.maxDepth < UInt32.size ∧ tally.placeholders < UInt32.size) ∧
    outcome.tree.height ≤ max settings.limits.maxDepth.toNat 1 ∧
    outcome.tree.size ≤ max settings.limits.maxNodes.toNat 2 + outcome.tree.height ∧
    (2 ≤ settings.limits.maxNodes.toNat →
      outcome.tree.size ≤ settings.limits.maxNodes.toNat + outcome.tree.height) := by
  intro outcome
  have surveys := (settings.surveyor source).surveys_survey root
  have only : ∀ other later, (settings.surveyor source).Surveys root other later →
      other = ((settings.surveyor source).survey root).1 ∧
        later = ((settings.surveyor source).survey root).2 := by
    intro other later also
    rw [Surveyor.survey_of_surveys also]
    exact ⟨rfl, rfl⟩
  have deepest : ((settings.surveyor source).survey root).2.maxDepth < UInt32.size := by
    rw [((settings.surveyor source).counted_survey root).deepest, Nat.zero_add, Nat.zero_max]
    exact Surveyor.height_survey_lt root
  have placeholders := ((settings.surveyor source).bounded_root root).fits.room
  have height : outcome.tree.height ≤ max settings.limits.maxDepth.toNat 1 := by
    rw [height_tree_capture]
    exact Surveyor.height_survey root
  have size : outcome.tree.size ≤ max settings.limits.maxNodes.toNat 2 + outcome.tree.height := by
    rw [size_tree_capture, height_tree_capture]
    exact Surveyor.size_survey _ root
  exact ⟨⟨_, _, surveys, only, map_toFace_capture settings source registry root tick, rfl, deepest,
    Nat.lt_of_succ_lt placeholders⟩, height, size, by omega⟩

end SessionReplay.Capture
