import SessionReplay.Proofs.Capture.Drawing
import SessionReplay.Proofs.Capture.Numbering

/-!
What the tally says of what was seen. A visit adds to it the nodes that it leaves, the level of the
deepest of them, and whether one of them has the mark of a limit.
-/

namespace SessionReplay

namespace Tree

variable {α : Type u}

theorem heightAll_append (first second : List (Tree α)) :
    heightAll (first ++ second) = max (heightAll first) (heightAll second) := by
  induction first with
  | nil => simp [heightAll]
  | cons tree trees induction =>
      rw [List.cons_append, heightAll, heightAll, induction, Nat.max_assoc]

theorem size_map {β : Type v} (f : α → β) (tree : Tree α) : (tree.map f).size = tree.size := by
  rw [← length_preorder, ← length_preorder, preorder_map, List.length_map]

end Tree

theorem Trace.toNat_capped (count : Nat) : (capped count).toNat = min count (UInt32.size - 1) := by
  rw [capped, UInt32.toNat_ofNat_of_lt']
  exact Nat.lt_of_le_of_lt (Nat.min_le_right _ _) (by decide)

namespace Capture

/-- The node of a view at which a limit ends the way down. -/
def Sighting.marked (sighting : Sighting) : Bool := sighting.face.kind.isTruncated

namespace Surveyor

variable {surveyor : Surveyor}

/-- What a visit adds to the tally. -/
structure Counted (depth : Nat) (tally : Tally) (tree : Tree Sighting) (after : Tally) : Prop where
  nodes : after.nodes = tally.nodes + tree.size
  deepest : after.maxDepth = max tally.maxDepth (depth + tree.height)
  truncated : after.truncated = (tally.truncated || tree.preorder.any Sighting.marked)

/-- What visits of children add to it, level by level below their parent. -/
structure CountedAll (parent : Nat) (tally : Tally) (trees : List (Tree Sighting))
    (after : Tally) : Prop where
  nodes : after.nodes = tally.nodes + Tree.sizeAll trees
  deepest : after.maxDepth = max tally.maxDepth (parent + Tree.heightAll trees)
  truncated : after.truncated =
    (tally.truncated || trees.any (·.preorder.any Sighting.marked))

theorem marked_plainFace (place : Placement) (frame : Rect) (paint : Paint) (masked : Bool)
    (attributes : Attributes) : (plainFace place frame paint masked attributes).kind.isTruncated =
      attributes.contains truncationMark := rfl

theorem counted_terminal (limit : Trace.Limit) (depth : Nat) (place : Placement)
    (inherited : List Masking) (view : ViewHandle) (tally : Tally) :
    Counted depth tally (surveyor.terminal limit depth place inherited view tally).1
      (surveyor.terminal limit depth place inherited view tally).2 where
  nodes := rfl
  deepest := rfl
  truncated := by
    simp [terminal, Tally.truncate, Tree.preorder, Tree.preorderAll, Sighting.marked,
      marked_plainFace]

theorem counted_placeholder (depth : Nat) (place : Placement) (inherited : List Masking)
    (view : ViewHandle) (frame : Rect) (paint : Paint) (reports : List Report) (tally : Tally) :
    Counted depth tally
      (surveyor.placeholder place inherited view frame paint reports (tally.count depth)).1
      (surveyor.placeholder place inherited view frame paint reports (tally.count depth)).2 where
  nodes := rfl
  deepest := rfl
  truncated := by
    simp [placeholder, Tally.placeholder, Tally.count, Tree.preorder, Tree.preorderAll,
      Sighting.marked, marked_plainFace]

theorem counted_row {full : Tally → Prop} {parent : Nat} {limit : Trace.Limit} {inside : Placement}
    {declared : List Masking} {visited : ViewHandle → Tally → Tree Sighting → Tally → Prop}
    (each : ∀ view tally tree after, visited view tally tree after →
      Counted (parent + 1) tally tree after)
    {views : List ViewHandle} {tally after : Tally} {trees : List (Tree Sighting)}
    (row : Row full (surveyor.terminal limit (parent + 1) inside declared) visited views tally
      trees after) (reached : parent ≤ tally.maxDepth) : CountedAll parent tally trees after := by
  induction row with
  | done tally => exact ⟨rfl, by simp [Tree.heightAll, reached], by simp⟩
  | @last view views tally room =>
      have counted := surveyor.counted_terminal limit (parent + 1) inside declared view tally
      refine ⟨?_, ?_, ?_⟩
      · rw [counted.nodes]
        rfl
      · rw [counted.deepest]
        rfl
      · rw [counted.truncated]
        simp
  | next room first _ induction =>
      have counted := each _ _ _ _ first
      have deepest := counted.deepest
      have rest := induction (by omega)
      refine ⟨?_, ?_, ?_⟩
      · rw [rest.nodes, counted.nodes, Tree.sizeAll]
        omega
      · rw [rest.deepest, counted.deepest, Tree.heightAll]
        omega
      · rw [rest.truncated, counted.truncated, List.any_cons, Bool.or_assoc]

/-- The text inside an element, as it is counted. -/
theorem counted_texts (depth : Nat) (view : ViewHandle) (face : Face) (kind : View.Kind)
    (portrait : Portrait) (tally : Tally) :
    CountedAll depth (tally.count depth) (textNodes view face portrait.text)
      (inspected depth kind portrait tally) := by
  unfold inspected
  dsimp only
  -- Whether the kind of the view is unknown makes no difference for the nodes.
  generalize noted : (if (unknownReports kind).isEmpty then tally.count depth
    else (tally.count depth).placeholder) = counted
  have same : counted.nodes = tally.nodes + 1 ∧ counted.maxDepth = max tally.maxDepth depth ∧
      counted.truncated = tally.truncated := by
    rw [← noted]
    split <;> exact ⟨rfl, rfl, rfl⟩
  obtain ⟨nodes, deepest, truncated⟩ := same
  cases portrait.text with
  | none =>
      refine ⟨nodes, ?_, ?_⟩
      · simp [deepest, textNodes, Tree.heightAll, Tally.count]
      · simp [truncated, textNodes, Tally.count]
  | some content =>
      refine ⟨?_, ?_, ?_⟩
      · simp [nodes, textNodes, Tree.sizeAll, Tree.size, Tally.count]
      · simp [deepest, textNodes, Tree.heightAll, Tree.height, Tally.count]
      · simp [truncated, textNodes, Tally.count, Tree.preorder, Tree.preorderAll, Sighting.marked,
          Kind.isTruncated]

theorem CountedAll.append {parent : Nat} {tally middle after : Tally}
    {first second : List (Tree Sighting)} (one : CountedAll parent tally first middle)
    (two : CountedAll parent middle second after) :
    CountedAll parent tally (first ++ second) after where
  nodes := by
    rw [two.nodes, one.nodes, Tree.sizeAll_append]
    omega
  deepest := by
    rw [two.deepest, one.deepest, Tree.heightAll_append]
    omega
  truncated := by
    rw [two.truncated, one.truncated, List.any_append, Bool.or_assoc]

theorem CountedAll.node {depth : Nat} {tally after : Tally} {sighting : Sighting}
    {children : List (Tree Sighting)} (below : CountedAll depth (tally.count depth) children after)
    (plain : sighting.marked = false) :
    Counted depth tally (.node sighting children) after where
  nodes := by
    rw [below.nodes, Tree.size]
    simp only [Tally.count]
    omega
  deepest := by
    rw [below.deepest, Tree.height]
    simp only [Tally.count]
    omega
  truncated := by
    rw [below.truncated, Tree.preorder_node, List.any_cons, plain, Bool.false_or, List.any_flatMap]
    rfl

theorem marked_elementFace {view : ViewHandle} {kind : View.Kind} {portrait : Portrait}
    (answered : surveyor.portrait view kind = .ok portrait) (place : Placement)
    (inherited : List Masking) :
    (surveyor.elementFace place inherited view kind portrait).kind.isTruncated = false := by
  rw [← Bool.not_eq_true]
  exact fun marked =>
    (portrait_attributes answered).2 (Std.ExtTreeMap.contains_iff_mem.mp marked)

theorem counted_visit (levels depth : Nat) (place : Placement) (inherited : List Masking)
    (view : ViewHandle) (tally : Tally) :
    Counted depth tally (surveyor.visit levels depth place inherited view tally).1
      (surveyor.visit levels depth place inherited view tally).2 := by
  apply visit_tally_induction
    (motive := fun _ depth _ _ _ tally tree after => Counted depth tally tree after)
  case limit => exact fun _ _ _ _ _ => counted_terminal _ _ _ _ _ _
  case untold => exact fun _ _ _ _ _ _ _ _ => counted_placeholder _ _ _ _ _ _ _ _
  case unanswered => exact fun _ _ _ _ _ _ _ _ _ _ => counted_placeholder _ _ _ _ _ _ _ _
  case element =>
    intro levels depth place inherited view tally kind portrait trees after told answered row
      face reports
    have texts := counted_texts depth view face kind portrait tally
    have reached : depth ≤ (inspected depth kind portrait tally).maxDepth := by
      rw [texts.deepest]
      simp only [Tally.count]
      omega
    exact (texts.append (counted_row (fun _ _ _ _ counted => counted) row reached)).node
      (marked_elementFace answered place inherited)

/-- The placement of the root view. Nothing moves it, and nothing outside its frame shows. -/
def rootPlace (surveyor : Surveyor) (root : ViewHandle) : Placement :=
  ⟨.identity, (answerOr .zero .geometry (surveyor.source.frame root)).1.sanitize⟩

/-- What stands for the document. -/
def documentSighting (surveyor : Surveyor) (root : ViewHandle) : Sighting where
  key := ⟨root, .document⟩
  face :=
    { kind := .document, frame := (surveyor.rootPlace root).clip
      clip := (surveyor.rootPlace root).clip }

theorem survey_eq (root : ViewHandle) : surveyor.survey root =
    (.node (surveyor.documentSighting root)
      [(surveyor.visit (surveyor.limits.maxDepth.toNat - 1) 1 (surveyor.rootPlace root) [] root
        (Tally.count 0 {})).1],
      (surveyor.visit (surveyor.limits.maxDepth.toNat - 1) 1 (surveyor.rootPlace root) [] root
        (Tally.count 0 {})).2) := rfl

theorem height_survey (root : ViewHandle) :
    (surveyor.survey root).1.height ≤ max surveyor.limits.maxDepth.toNat 1 := by
  rw [survey_eq, Tree.height_le_iff]
  intro child member
  have visited := surveyor.height_visit (surveyor.limits.maxDepth.toNat - 1) 1
    (surveyor.rootPlace root) [] root (Tally.count 0 {})
  rw [List.mem_singleton.mp member]
  omega

/-- The levels of a document are numbers of 32 bits. -/
theorem height_survey_lt (root : ViewHandle) : (surveyor.survey root).1.height < UInt32.size := by
  have levels := surveyor.height_survey root
  have bound := surveyor.limits.maxDepth.toNat_lt
  rw [UInt32.size]
  omega

/-- The tally of a survey describes the tree that comes out of it. -/
theorem counted_survey (root : ViewHandle) :
    Counted 0 {} (surveyor.survey root).1 (surveyor.survey root).2 := by
  have child := surveyor.counted_visit (surveyor.limits.maxDepth.toNat - 1) 1
    (surveyor.rootPlace root) [] root (Tally.count 0 {})
  rw [survey_eq]
  refine CountedAll.node ⟨?_, ?_, ?_⟩ rfl
  · rw [child.nodes]
    rfl
  · rw [child.deepest]
    simp only [Tree.heightAll]
    omega
  · rw [child.truncated]
    simp

end Surveyor

section Capture

variable (settings : Settings) (source : View.Introspector) (registry : Identity.Registry)
variable (root : ViewHandle) (tick : UInt64)

theorem size_tree_capture : (capture settings source registry root tick).tree.size =
    ((settings.surveyor source).survey root).1.size := by
  rw [← map_node_census, ← map_sighting_census registry, Tree.size_map, Tree.size_map]

theorem height_tree_capture : (capture settings source registry root tick).tree.height =
    ((settings.surveyor source).survey root).1.height := by
  rw [← map_node_census, ← map_sighting_census registry, Tree.height_map, Tree.height_map]

end Capture

end Capture

end SessionReplay
