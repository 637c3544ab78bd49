import SessionReplay.Proofs.View.Coherence

/-!
What a refused operation leaves behind. Handles are looked up before anything is changed, with one
exception: a constructor makes its view before it looks for the parent, and when there is none the
view stays.
-/

namespace SessionReplay.View

/-- The view that an operation makes at first, without parent and content. -/
def Operation.blank? : Operation → Option State
  | create kind frame => some { kind, frame }
  | container _ frame => some { kind := .container, frame }
  | label _ frame _ => some { kind := .text, frame }
  | textField _ frame _ => some { kind := .input, frame }
  | imageView _ frame _ => some { kind := .image, frame }
  | destroy _ | addChild .. | insertChild .. | detach _ | set .. => none

namespace Arena

variable {arena : Arena} {refusal : Refusal}

theorem refused_changed {result : Except Refusal Arena}
    (refused : (arena.changed result).2 = .error refusal) : (arena.changed result).1 = arena := by
  cases result with
  | error other => rfl
  | ok after => contradiction

theorem refused_made {place : Option ViewHandle} {kind : Kind} {frame : Rect}
    {fill : State → State}
    (refused : (made (arena.attached place kind frame fill)).2 = .error refusal) :
    (made (arena.attached place kind frame fill)).1 = (arena.create { kind, frame }).2 := by
  rcases attached_cases arena place kind frame fill with
    ⟨settled, filled, -, -, result⟩ | ⟨other, result⟩
  · rw [result] at refused
    contradiction
  · rw [result]
    rfl

/-- A refused operation has done nothing but make its view, if it makes one. -/
theorem refused_perform {operation : Operation}
    (refused : (arena.perform operation).2 = .error refusal) :
    (arena.perform operation).1 =
      match operation.blank? with
      | some blank => (arena.create blank).2
      | none => arena := by
  cases operation with
  | create kind frame => contradiction
  | container place frame => exact refused_made refused
  | label place frame text => exact refused_made refused
  | textField place frame text => exact refused_made refused
  | imageView place frame source => exact refused_made refused
  | destroy view => exact refused_changed refused
  | addChild parent child => exact refused_changed refused
  | insertChild parent index child => exact refused_changed refused
  | detach view => exact refused_changed refused
  | set view setting => exact refused_changed refused

/-- A new view takes a free slot, or there is a further one. -/
theorem length_create (view : State) :
    (arena.create view).2.slots.length + arena.free.length =
      arena.slots.length + (arena.create view).2.free.length + 1 := by
  unfold create
  split
  case h_1 index rest recycled =>
    rw [length_modify, recycled]
    rfl
  case h_2 full => simp [full]

theorem size_create (tidy : Tidy arena []) (view : State) :
    (arena.create view).2.size = arena.size + 1 := by
  have before := length_slots tidy
  have after := length_slots (tidy_create tidy view)
  have taken := arena.length_create view
  omega

theorem create_ne (view : State) : (arena.create view).2 ≠ arena := by
  intro same
  have taken := arena.length_create view
  rw [same] at taken
  omega

/-- Refused operations leave the arena as it was, in every state it can come to, but for those that
make a view. These leave the new view, live and with its kind and its frame, but without parent,
children and content. -/
theorem refused_keeps_iff (operations : List Operation) (operation : Operation)
    (refusal : Refusal)
    (refused : ((({} : Arena).after operations).perform operation).2 = .error refusal) :
    let before := ({} : Arena).after operations
    let after := (before.perform operation).1
    (after = before ↔ operation.blank? = none) ∧
    ∀ blank, operation.blank? = some blank →
      after.size = before.size + 1 ∧ after.free = before.free.tail ∧
      before.liveAt before.newSlot = false ∧
      ∀ index, after.slots[index]? =
        if index = before.newSlot then some { view := blank, generation := before.newGeneration }
        else before.slots[index]? := by
  intro before after
  have tidy : Tidy before [] := tidy_after operations
  have left : after = _ := refused_perform refused
  constructor
  · cases makes : operation.blank? with
    | none =>
        rw [makes] at left
        exact iff_of_true left rfl
    | some blank =>
        rw [makes] at left
        refine iff_of_false ?_ (Option.some_ne_none blank)
        rw [left]
        exact create_ne blank
  · intro blank makes
    rw [makes] at left
    rw [left]
    exact ⟨size_create tidy blank, free_create before blank, newSlot_dead tidy,
      slots_create tidy blank⟩

/-- A label for a view that is not there, in an arena without views. -/
theorem refused_keeps_iff_orphan :
    let frame : Rect := ⟨0, 0, 10, 10⟩
    let after := (({} : Arena).perform (.label (some ⟨7⟩) frame "hi")).1
    (({} : Arena).perform (.label (some ⟨7⟩) frame "hi")).2 = .error (.stale ⟨7⟩) ∧
    after ≠ {} ∧ after.size = 1 ∧ after.slots[0]? = some { view := { kind := .text, frame } } := by
  intro frame after
  have refused : ((({} : Arena).after []).perform (.label (some ⟨7⟩) frame "hi")).2 =
      .error (.stale ⟨7⟩) := rfl
  obtain ⟨kept, left⟩ := refused_keeps_iff [] _ _ refused
  obtain ⟨size, -, -, slots⟩ := left { kind := .text, frame } rfl
  exact ⟨refused, fun same => absurd (kept.mp same) (Option.some_ne_none _), size, slots 0⟩

end Arena

end SessionReplay.View
