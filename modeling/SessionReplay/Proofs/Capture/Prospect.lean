import SessionReplay.Proofs.Capture.Accounting

/-!
What there is to see of the views with no regard to the number of nodes. A survey that stays within
its room shows just that, whatever it came across before.
-/

namespace SessionReplay.Capture.Surveyor

variable {surveyor : Surveyor}

/-- The view and all that there is to see below it, with `levels` to go until the greatest depth. -/
def prospect (surveyor : Surveyor) : (levels : Nat) → (depth : Nat) → Placement →
    (inherited : List Masking) → ViewHandle → Tree Sighting
  | 0, depth, place, inherited, view =>
      (surveyor.terminal .depth depth place inherited view {}).1
  | levels + 1, depth, place, inherited, view =>
      match surveyor.source.kind view with
      | .error _ => (surveyor.untold depth place inherited view {}).1
      | .ok kind =>
        match surveyor.portrait view kind with
        | .error _ => (surveyor.unanswered depth place inherited view {}).1
        | .ok portrait =>
            let face := surveyor.elementFace place inherited view kind portrait
            .node
              { key := ⟨view, .view⟩, face, reports := surveyor.elementReports place view kind }
              (textNodes view face portrait.text ++
                (surveyor.source.children view).map
                  (prospect surveyor levels (depth + 1) (surveyor.placeInside place view).1
                    (surveyor.declarations view inherited)))

/-- The document with all that there is to see below it. -/
def panorama (surveyor : Surveyor) (root : ViewHandle) : Tree Sighting :=
  .node (surveyor.documentSighting root)
    [surveyor.prospect (surveyor.limits.maxDepth.toNat - 1) 1 (surveyor.rootPlace root) [] root]

theorem prospect_answered {view : ViewHandle} {kind : View.Kind} {portrait : Portrait}
    (told : surveyor.source.kind view = .ok kind)
    (answered : surveyor.portrait view kind = .ok portrait) (levels depth : Nat)
    (place : Placement) (inherited : List Masking) :
    surveyor.prospect (levels + 1) depth place inherited view =
      .node
        { key := ⟨view, .view⟩
          face := surveyor.elementFace place inherited view kind portrait
          reports := surveyor.elementReports place view kind }
        (textNodes view (surveyor.elementFace place inherited view kind portrait) portrait.text ++
          (surveyor.source.children view).map (surveyor.prospect levels (depth + 1)
            (surveyor.placeInside place view).1 (surveyor.declarations view inherited))) := by
  simp only [prospect, told, answered]

section Siblings

variable (surveyor)
variable {visit stop : ViewHandle → Tally → Tree Sighting × Tally}
variable (counted : ∀ view tally, (visit view tally).2.nodes =
  tally.nodes + (visit view tally).1.size)
variable (stopped : ∀ view tally, (stop view tally).2.nodes = tally.nodes + 1)

include counted stopped

theorem nodes_le_siblings (views : List ViewHandle) (tally : Tally) :
    tally.nodes ≤ (surveyor.siblings visit stop views tally).2.nodes := by
  induction views generalizing tally with
  | nil => exact Nat.le_refl _
  | cons view views induction =>
      rw [siblings]
      split
      case isTrue full =>
        rw [stopped]
        exact Nat.le_succ _
      case isFalse more =>
        have first := counted view tally
        exact Nat.le_trans (by omega) (induction (visit view tally).2)

/-- A row that stays within the room, or has to, shows all that there is to see of each view. -/
theorem siblings_whole {whole : ViewHandle → Tree Sighting}
    (each : ∀ view tally, (visit view tally).2.nodes ≤ surveyor.limits.maxNodes.toNat ∨
      tally.nodes + (whole view).size ≤ surveyor.limits.maxNodes.toNat →
      (visit view tally).1 = whole view)
    (views : List ViewHandle) (tally : Tally)
    (room : (surveyor.siblings visit stop views tally).2.nodes ≤ surveyor.limits.maxNodes.toNat ∨
      tally.nodes + Tree.sizeAll (views.map whole) ≤ surveyor.limits.maxNodes.toNat) :
    (surveyor.siblings visit stop views tally).1 = views.map whole := by
  induction views generalizing tally with
  | nil => rfl
  | cons view views induction =>
      rw [List.map_cons, Tree.sizeAll] at room
      have some := (whole view).size_pos
      by_cases full : surveyor.limits.maxNodes.toNat ≤ tally.nodes
      · -- The view that ends a row comes on top of as many nodes as there is room for.
        rw [siblings, if_pos full] at room
        have after := stopped view tally
        dsimp only at room
        omega
      · rw [siblings, if_neg full] at room ⊢
        dsimp only at room ⊢
        have later := nodes_le_siblings surveyor counted stopped views (visit view tally).2
        have first := each view tally (by omega)
        have count := counted view tally
        rw [first] at count
        rw [List.map_cons, first, induction _ (by omega)]

end Siblings

theorem visit_whole (surveyor : Surveyor) (levels depth : Nat) (place : Placement)
    (inherited : List Masking) (view : ViewHandle) (tally : Tally)
    (room : (surveyor.visit levels depth place inherited view tally).2.nodes ≤
        surveyor.limits.maxNodes.toNat ∨
      tally.nodes + (surveyor.prospect levels depth place inherited view).size ≤
        surveyor.limits.maxNodes.toNat) :
    (surveyor.visit levels depth place inherited view tally).1 =
      surveyor.prospect levels depth place inherited view := by
  induction levels generalizing depth place inherited view tally with
  | zero => rfl
  | succ levels induction =>
      cases told : surveyor.source.kind view with
      | error cause =>
          simp only [visit, prospect, told]
          rfl
      | ok kind =>
          cases answered : surveyor.portrait view kind with
          | error cause =>
              simp only [visit, prospect, told, answered]
              rfl
          | ok portrait =>
              rw [visit_answered told answered, prospect_answered told answered] at room
              rw [visit_answered told answered, prospect_answered told answered]
              have texts := (counted_texts depth view
                (surveyor.elementFace place inherited view kind portrait) kind portrait tally).nodes
              rw [Tree.size, Tree.sizeAll_append] at room
              simp only [Tally.count] at texts
              have row : (surveyor.below levels depth place inherited view kind portrait
                  tally).1 = _ := siblings_whole surveyor
                (fun view tally => (counted_visit levels (depth + 1) _ _ view tally).nodes)
                (fun _ _ => rfl) (fun view tally => induction (depth + 1) _ _ view tally)
                (surveyor.source.children view) (inspected depth kind portrait tally) (by
                  rw [texts]
                  exact room.imp id (by omega))
              rw [row]

theorem size_panorama (root : ViewHandle) : (surveyor.panorama root).size =
    1 + (surveyor.prospect (surveyor.limits.maxDepth.toNat - 1) 1 (surveyor.rootPlace root) []
      root).size := by
  rw [panorama, Tree.size, Tree.sizeAll, Tree.sizeAll, Nat.add_zero]

/-- A survey with no more nodes than there is room for shows everything, and so does any survey when
everything is no more than that. -/
theorem survey_whole {root : ViewHandle}
    (room : (surveyor.survey root).1.size ≤ surveyor.limits.maxNodes.toNat ∨
      (surveyor.panorama root).size ≤ surveyor.limits.maxNodes.toNat) :
    (surveyor.survey root).1 = surveyor.panorama root := by
  have counted := (surveyor.counted_survey root).nodes
  rw [Nat.zero_add] at counted
  rw [← counted, size_panorama] at room
  have child := surveyor.visit_whole (surveyor.limits.maxDepth.toNat - 1) 1
    (surveyor.rootPlace root) [] root (Tally.count 0 {}) room
  rw [survey_eq, panorama, child]

/-- The limits have no part in what there is to see down to a level. -/
theorem prospect_limits (limits : Limits) (levels depth : Nat) (place : Placement)
    (inherited : List Masking) (view : ViewHandle) :
    Surveyor.prospect { surveyor with limits } levels depth place inherited view =
      surveyor.prospect levels depth place inherited view := by
  induction levels generalizing depth place inherited view with
  | zero => rfl
  | succ levels induction =>
      cases told : surveyor.source.kind view with
      | error cause =>
          simp only [prospect, told]
          rfl
      | ok kind =>
          have same : Surveyor.portrait { surveyor with limits } view kind =
            surveyor.portrait view kind := rfl
          cases answered : surveyor.portrait view kind with
          | error cause =>
              simp only [prospect, told, same, answered]
              rfl
          | ok portrait =>
              have limited := @prospect_answered { surveyor with limits } _ _ _ told answered
              rw [prospect_answered told answered, limited]
              have below : ∀ inside declared,
                  Surveyor.prospect { surveyor with limits } levels (depth + 1) inside declared =
                    surveyor.prospect levels (depth + 1) inside declared :=
                fun inside declared => funext (induction (depth + 1) inside declared)
              rw [below]
              rfl

end SessionReplay.Capture.Surveyor
