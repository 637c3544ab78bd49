import SessionReplay.Proofs.View.Slots

/-!
What the arena keeps of its views fits together after every run. A view has a parent exactly when
it is among the children of one, and then once; a slot without a live view has neither parent nor
children and waits once to be used again. A view may still come below its own descendants, so that
the views need not form trees.
-/

namespace SessionReplay.View.Arena

variable {arena : Arena}

/-- The pending slots are live, but they are nobody's children any more and only wait to be
released. -/
structure Tidy (arena : Arena) (pending : List Nat) : Prop where
  linked : ∀ index parent, index ∈ arena.childrenAt parent ↔
    arena.parentAt index = some parent ∧ index ∉ pending
  once : ∀ parent, (arena.childrenAt parent).Nodup
  dead : ∀ index, arena.liveAt index = false →
    arena.parentAt index = none ∧ arena.childrenAt index = []
  free : ∀ index, index ∈ arena.free ↔ index < arena.slots.length ∧ arena.liveAt index = false
  unique : arena.free.Nodup
  waiting : pending.Nodup
  waitingLive : ∀ index ∈ pending, arena.liveAt index = true

namespace Tidy

variable {pending : List Nat} {index parent : Nat}

theorem live_of_parent (tidy : Tidy arena pending) (attached : arena.parentAt index = some parent) :
    arena.liveAt index = true := by
  by_contra dead
  rw [(tidy.dead index (eq_false_of_ne_true dead)).1] at attached
  contradiction

theorem live_of_child (tidy : Tidy arena pending) (listed : index ∈ arena.childrenAt parent) :
    arena.liveAt parent = true := by
  by_contra dead
  rw [(tidy.dead parent (eq_false_of_ne_true dead)).2] at listed
  contradiction

theorem child_live (tidy : Tidy arena pending) (listed : index ∈ arena.childrenAt parent) :
    arena.liveAt index = true :=
  tidy.live_of_parent ((tidy.linked index parent).mp listed).1

theorem parent_live (tidy : Tidy arena []) (attached : arena.parentAt index = some parent) :
    arena.liveAt parent = true :=
  tidy.live_of_child ((tidy.linked index parent).mpr ⟨attached, List.not_mem_nil⟩)

/-- A pending slot is on no list of children. -/
theorem unlisted (tidy : Tidy arena pending) (waits : index ∈ pending) (parent : Nat) :
    index ∉ arena.childrenAt parent := fun listed =>
  ((tidy.linked index parent).mp listed).2 waits

end Tidy

theorem tidy_empty : Tidy {} [] where
  linked := by
    intro index parent
    simp [childrenAt, parentAt]
  once := by
    intro parent
    simp [childrenAt]
  dead := by
    intro index _
    exact ⟨rfl, rfl⟩
  free := by simp
  unique := List.nodup_nil
  waiting := List.nodup_nil
  waitingLive := List.forall_mem_nil _

section Detaching

variable (tidy : Tidy arena []) (index : Nat)
include tidy

/-- A slot that leaves its parent is taken from one list of children, and once. -/
theorem mem_childrenAt_detachSlot (other parent : Nat) :
    other ∈ (arena.detachSlot index).childrenAt parent ↔
      other ∈ arena.childrenAt parent ∧ other ≠ index := by
  rw [childrenAt_detachSlot]
  split
  case isTrue => rw [List.mem_filter, decide_eq_true_iff]
  case isFalse elsewhere =>
    refine ⟨fun listed => ⟨listed, ?_⟩, And.left⟩
    rintro rfl
    exact elsewhere ((tidy.linked other parent).mp listed).1

theorem tidy_detachSlot : Tidy (arena.detachSlot index) [] where
  linked := by
    intro other parent
    rw [mem_childrenAt_detachSlot tidy, tidy.linked, parentAt_detachSlot]
    by_cases here : other = index <;> simp [here]
  once := by
    intro parent
    rw [childrenAt_detachSlot]
    split
    case isTrue => exact (tidy.once parent).filter _
    case isFalse => exact tidy.once parent
  dead := by
    intro other dead
    rw [liveAt_detachSlot] at dead
    obtain ⟨parent, children⟩ := tidy.dead other dead
    rw [parentAt_detachSlot, childrenAt_detachSlot, parent, children]
    exact ⟨ite_self none, ite_self []⟩
  free := by
    intro other
    rw [free_detachSlot, length_detachSlot,
      liveAt_detachSlot]
    exact tidy.free other
  unique := by
    rw [free_detachSlot]
    exact tidy.unique
  waiting := List.nodup_nil
  waitingLive := List.forall_mem_nil _

/-- Once a live slot has left its parent it can be released. -/
theorem tidy_detached (live : arena.liveAt index = true) :
    Tidy (arena.detachSlot index) [index] :=
  { tidy_detachSlot tidy index with
    linked := by
      intro other parent
      rw [(tidy_detachSlot tidy index).linked, parentAt_detachSlot]
      by_cases here : other = index <;> simp [here]
    waiting := List.nodup_singleton index
    waitingLive := by
      intro other waits
      rw [List.mem_singleton.mp waits, liveAt_detachSlot]
      exact live }

end Detaching

/-- A list of children, and the same with one more among them. -/
theorem perm_placed (children : List Nat) (index child : Nat) :
    (children.insertIdx (min index children.length) child).Perm (child :: children) :=
  List.perm_insertIdx child children (Nat.min_le_right _ _)

theorem tidy_place (tidy : Tidy arena []) {parent child : Nat} (apart : parent ≠ child)
    (parentLive : arena.liveAt parent = true) (childLive : arena.liveAt child = true)
    (index : Nat) : Tidy (arena.place parent index child) [] := by
  have before := tidy_detachSlot tidy child
  have inside := inside_of_live childLive
  have parentInside := inside_of_live parentLive
  have live := liveAt_place apart arena index
  have liveBefore := liveAt_detachSlot arena child
  refine ⟨?_, ?_, ?_, ?_, ?_, List.nodup_nil, List.forall_mem_nil _⟩
  · intro other above
    have left := mem_childrenAt_detachSlot tidy child other above
    rw [childrenAt_place apart arena index above parentInside,
      parentAt_place apart arena index other inside]
    by_cases here : above = parent
    · rw [if_pos here, (perm_placed _ index child).mem_iff, List.mem_cons, left, tidy.linked, here]
      by_cases own : other = child <;> simp [own]
    · rw [if_neg here, left, tidy.linked]
      by_cases own : other = child <;> simp [own, Ne.symm here]
  · intro above
    rw [childrenAt_place apart arena index above parentInside]
    split
    case isTrue here =>
      rw [(perm_placed _ index child).nodup_iff, List.nodup_cons]
      refine ⟨?_, before.once above⟩
      rw [mem_childrenAt_detachSlot tidy]
      exact fun listed => listed.2 rfl
    case isFalse => exact before.once above
  · intro other dead
    rw [live] at dead
    have notChild : other ≠ child := by
      rintro rfl
      rw [childLive] at dead
      contradiction
    have notParent : other ≠ parent := by
      rintro rfl
      rw [parentLive] at dead
      contradiction
    rw [parentAt_place apart arena index other inside, if_neg notChild,
      childrenAt_place apart arena index other parentInside, if_neg notParent]
    exact ⟨(tidy.dead other dead).1, (before.dead other ((liveBefore other).trans dead)).2⟩
  · intro other
    rw [free_place, length_place, live]
    exact tidy.free other
  · rw [free_place]
    exact tidy.unique

/-- A slot is released: its children wait in its place. -/
theorem tidy_release {index : Nat} {pending : List Nat} (tidy : Tidy arena (index :: pending)) :
    Tidy (arena.release index) ((arena.childrenAt index).reverse ++ pending) := by
  have live : arena.liveAt index = true := tidy.waitingLive index List.mem_cons_self
  have unlisted := tidy.unlisted List.mem_cons_self
  obtain ⟨fresh, others⟩ := List.nodup_cons.mp tidy.waiting
  refine ⟨?_, ?_, ?_, ?_, ?_, ?_, ?_⟩
  · intro other parent
    rw [childrenAt_release, parentAt_release, List.mem_append, List.mem_reverse, tidy.linked]
    have listed := tidy.linked other parent
    rw [List.mem_cons] at listed ⊢
    -- The released slot was on no list. Its children leave its list and wait instead, while on the
    -- other lists nothing changes, as nobody has two parents.
    by_cases own : other = index
    · simp [own, unlisted]
    · by_cases here : parent = index
      · subst here
        simp only [if_true, if_neg own, List.not_mem_nil, false_iff]
        tauto
      · simp only [if_neg here, if_neg own, listed]
        constructor
        · rintro ⟨attached, absent⟩
          refine ⟨attached, ?_⟩
          rintro (⟨elsewhere, -⟩ | waits)
          · exact here (Option.some.inj (attached.symm.trans elsewhere))
          · exact absent (.inr waits)
        · rintro ⟨attached, absent⟩
          exact ⟨attached, fun waits => absent (.inr (waits.resolve_left own))⟩
  · intro parent
    rw [childrenAt_release]
    split
    case isTrue => exact List.nodup_nil
    case isFalse => exact tidy.once parent
  · intro other dead
    rw [liveAt_release] at dead
    rw [parentAt_release, childrenAt_release]
    split at dead
    case isTrue here => rw [if_pos here, if_pos here]; exact ⟨rfl, rfl⟩
    case isFalse elsewhere =>
      rw [if_neg elsewhere, if_neg elsewhere]
      exact tidy.dead other dead
  · intro other
    rw [liveAt_release, length_release]
    change other ∈ index :: arena.free ↔ _
    rw [List.mem_cons, tidy.free]
    by_cases here : other = index
    · subst here
      simp [inside_of_live live]
    · simp [here]
  · change (index :: arena.free).Nodup
    refine List.nodup_cons.mpr ⟨?_, tidy.unique⟩
    rw [tidy.free, live]
    simp
  · apply List.nodup_append.mpr
    refine ⟨List.nodup_reverse.mpr (tidy.once index), others, ?_⟩
    rintro child listed other waits rfl
    exact tidy.unlisted (List.mem_cons_of_mem _ waits) index (List.mem_reverse.mp listed)
  · intro other member
    have different : other ≠ index := by
      rintro rfl
      rcases List.mem_append.mp member with listed | waits
      · exact unlisted other (List.mem_reverse.mp listed)
      · exact fresh waits
    rw [liveAt_release, if_neg different]
    rcases List.mem_append.mp member with listed | waits
    · exact tidy.child_live (List.mem_reverse.mp listed)
    · exact tidy.waitingLive other (List.mem_cons_of_mem _ waits)

theorem tidy_releaseAll {pending : List Nat} (tidy : Tidy arena pending) :
    Tidy (arena.releaseAll pending) [] := by
  fun_induction releaseAll arena pending with
  | case1 => exact tidy
  | case2 arena index pending induction => exact induction (tidy_release tidy)

section Creating

/-- The slot of the next view: the one that was released last, or a further one. -/
def newSlot (arena : Arena) : Nat := arena.free.headD arena.slots.length

def newGeneration (arena : Arena) : Nat :=
  match arena.slots[arena.newSlot]? with
  | some slot => slot.generation + 1
  | none => 0

theorem free_create (arena : Arena) (view : State) :
    (arena.create view).2.free = arena.free.tail := by
  unfold create
  split
  case h_1 index free recycled => rw [recycled]; rfl
  case h_2 full => rw [full]; rfl

theorem handle_create (arena : Arena) (view : State) :
    (arena.create view).1 = (arena.create view).2.handle arena.newSlot := by
  unfold create newSlot
  split
  case h_1 index free recycled => rw [recycled]; rfl
  case h_2 full => rw [full]; rfl

variable (tidy : Tidy arena [])
include tidy

theorem newSlot_dead : arena.liveAt arena.newSlot = false := by
  unfold newSlot
  cases free : arena.free with
  | nil => simp [liveAt]
  | cons index rest =>
      have listed : index ∈ arena.free := by
        rw [free]
        exact List.mem_cons_self
      exact ((tidy.free index).mp listed).2

theorem ne_newSlot {index : Nat} (live : arena.liveAt index = true) : index ≠ arena.newSlot := by
  rintro rfl
  rw [newSlot_dead tidy] at live
  contradiction

theorem slots_create (view : State) (other : Nat) :
    (arena.create view).2.slots[other]? =
      if other = arena.newSlot then some { view, generation := arena.newGeneration }
      else arena.slots[other]? := by
  unfold create
  split
  case h_1 index free recycled =>
    have chosen : arena.newSlot = index := by rw [newSlot, recycled]; rfl
    have inside : index < arena.slots.length := by
      apply ((tidy.free index).mp ?_).1
      rw [recycled]
      exact List.mem_cons_self
    rw [slots_modify, chosen]
    by_cases here : other = index
    · subst here
      simp [newGeneration, chosen, List.getElem?_eq_getElem inside]
    · simp [here]
  case h_2 full =>
    have chosen : arena.newSlot = arena.slots.length := by rw [newSlot, full]; rfl
    rw [chosen]
    by_cases here : other = arena.slots.length
    · subst here
      simp [newGeneration, chosen]
    · rw [if_neg here]
      by_cases inside : other < arena.slots.length
      · rw [List.getElem?_append_left inside]
      · have beyond : arena.slots.length + 1 ≤ other := by omega
        rw [List.getElem?_eq_none_iff.mpr (by simpa using beyond),
          List.getElem?_eq_none_iff.mpr (Nat.le_of_not_lt inside)]

theorem create_handle (view : State) :
    (arena.create view).1 = .ofParts arena.newSlot arena.newGeneration := by
  rw [handle_create, handle, slots_create tidy, if_pos rfl]
  rfl

theorem liveAt_create (view : State) (other : Nat) :
    (arena.create view).2.liveAt other =
      if other = arena.newSlot then true else arena.liveAt other := by
  rw [liveAt, slots_create tidy]
  split <;> rfl

/-- Nothing is known of a free slot, so a new view in it has no parent either. -/
theorem parentAt_create (view : State) (other : Nat) :
    (arena.create view).2.parentAt other = arena.parentAt other := by
  rw [parentAt, slots_create tidy]
  split
  case isTrue here =>
    rw [here, (tidy.dead _ (newSlot_dead tidy)).1]
    rfl
  case isFalse => rfl

theorem childrenAt_create (view : State) (other : Nat) :
    (arena.create view).2.childrenAt other = arena.childrenAt other := by
  rw [childrenAt, slots_create tidy]
  split
  case isTrue here =>
    rw [here, (tidy.dead _ (newSlot_dead tidy)).2]
    rfl
  case isFalse => rfl

theorem mem_free_create (view : State) (other : Nat) :
    other ∈ (arena.create view).2.free ↔ other ∈ arena.free ∧ other ≠ arena.newSlot := by
  have unique := tidy.unique
  rw [free_create, newSlot]
  cases free : arena.free with
  | nil => simp
  | cons index rest =>
      rw [free] at unique
      have fresh := (List.nodup_cons.mp unique).1
      rw [List.tail_cons, List.headD_cons, List.mem_cons]
      constructor
      · intro listed
        exact ⟨.inr listed, fun here => fresh (here ▸ listed)⟩
      · rintro ⟨listed, different⟩
        exact listed.resolve_left different

theorem inside_create (view : State) (other : Nat) :
    other < (arena.create view).2.slots.length ↔
      other < arena.slots.length ∨ other = arena.newSlot := by
  rw [← not_iff_not, not_or, ← List.getElem?_eq_none_iff.trans Nat.not_lt.symm,
    slots_create tidy, ← List.getElem?_eq_none_iff.trans Nat.not_lt.symm]
  by_cases here : other = arena.newSlot <;> simp [here]

theorem tidy_create (view : State) : Tidy (arena.create view).2 [] where
  linked := by
    intro index parent
    rw [childrenAt_create tidy, parentAt_create tidy]
    exact tidy.linked index parent
  once := by
    intro parent
    rw [childrenAt_create tidy]
    exact tidy.once parent
  dead := by
    intro index dead
    rw [liveAt_create tidy] at dead
    rw [parentAt_create tidy, childrenAt_create tidy]
    split at dead
    case isTrue => contradiction
    case isFalse => exact tidy.dead index dead
  free := by
    intro index
    rw [mem_free_create tidy, inside_create tidy, liveAt_create tidy, tidy.free]
    by_cases here : index = arena.newSlot <;> simp [here]
  unique := by
    rw [free_create]
    exact tidy.unique.tail
  waiting := List.nodup_nil
  waitingLive := List.forall_mem_nil _

end Creating

theorem tidy_redraw (tidy : Tidy arena []) (index : Nat) (change : State → State) :
    Tidy (arena.redraw index change) [] where
  linked := by
    intro other parent
    rw [childrenAt_redraw, parentAt_redraw]
    exact tidy.linked other parent
  once := by
    intro parent
    rw [childrenAt_redraw]
    exact tidy.once parent
  dead := by
    intro other dead
    rw [liveAt_redraw] at dead
    rw [parentAt_redraw, childrenAt_redraw]
    exact tidy.dead other dead
  free := by
    intro other
    rw [length_redraw, liveAt_redraw]
    exact tidy.free other
  unique := tidy.unique
  waiting := List.nodup_nil
  waitingLive := List.forall_mem_nil _

theorem tidy_change {after : Arena} (tidy : Tidy arena []) (change : Change arena after) :
    Tidy after [] := by
  cases change with
  | create view => exact tidy_create tidy view
  | detach alive => exact tidy_detachSlot tidy _
  | place index parentAlive childAlive apart =>
      exact tidy_place tidy apart (liveAt_of_alive parentAlive) (liveAt_of_alive childAlive) index
  | destroy alive => exact tidy_releaseAll (tidy_detached tidy _ (liveAt_of_alive alive))
  | redraw change alive => exact tidy_redraw tidy _ change

theorem tidy_after (operations : List Operation) : Tidy (({} : Arena).after operations) [] :=
  after_induction tidy_empty (fun _ _ => tidy_change) operations

/-- Parents, lists of children, liveness and the free slots tell the same of the views. -/
structure Coherent (arena : Arena) : Prop where
  /-- Whatever is kept of views is kept once for each live view and once for each free slot. -/
  columns : ∀ {α : Type} (column : Slot → α),
    (arena.slots.map column).length = arena.size + arena.free.length
  linked : ∀ index parent, (arena.childrenAt parent).count index =
    if arena.parentAt index = some parent then 1 else 0
  live : ∀ index parent, arena.parentAt index = some parent →
    arena.liveAt index = true ∧ arena.liveAt parent = true
  dead : ∀ index, arena.liveAt index = false →
    arena.parentAt index = none ∧ arena.childrenAt index = []
  free : ∀ index, arena.free.count index =
    if index < arena.slots.length ∧ arena.liveAt index = false then 1 else 0

section Counting

variable (tidy : Tidy arena [])

theorem size_eq (arena : Arena) :
    arena.size = (List.range arena.slots.length).countP arena.liveAt := by
  have flags : arena.slots.map Slot.alive = (List.range arena.slots.length).map arena.liveAt := by
    apply List.ext_getElem (by simp)
    intro index inside _
    simp only [List.length_map] at inside
    simp [liveAt, List.getElem?_eq_getElem inside]
  have counts := congrArg (List.countP id) flags
  rw [List.countP_map, List.countP_map] at counts
  exact counts

include tidy

/-- Every slot is either a live view's or free. -/
theorem length_slots : arena.slots.length = arena.size + arena.free.length := by
  have dead : arena.free.Perm
      ((List.range arena.slots.length).filter fun index => !arena.liveAt index) := by
    rw [List.perm_ext_iff_of_nodup tidy.unique (List.nodup_range.filter _)]
    intro index
    rw [tidy.free, List.mem_filter, List.mem_range, Bool.not_eq_true']
  have count := List.length_eq_countP_add_countP arena.liveAt (l := List.range arena.slots.length)
  rw [List.length_range] at count
  rw [size_eq, dead.length_eq, ← List.countP_eq_length_filter]
  simpa using count

theorem coherent_of_tidy : Coherent arena where
  columns column := by rw [List.length_map, length_slots tidy]
  linked := by
    intro index parent
    rw [(tidy.once parent).count]
    simp only [tidy.linked, List.not_mem_nil, not_false_eq_true, and_true]
  live := by
    intro index parent attached
    exact ⟨tidy.live_of_parent attached, tidy.parent_live attached⟩
  dead := tidy.dead
  free := by
    intro index
    rw [tidy.unique.count]
    simp only [tidy.free]

end Counting

theorem length_releaseAll (arena : Arena) (pending : List Nat) :
    (arena.releaseAll pending).slots.length = arena.slots.length := by
  fun_induction releaseAll arena pending with
  | case1 => rfl
  | case2 arena index pending induction => rw [induction, length_release]

theorem free_releaseAll (arena : Arena) (pending : List Nat) :
    ∃ pushed, (arena.releaseAll pending).free = pushed ++ arena.free := by
  fun_induction releaseAll arena pending with
  | case1 => exact ⟨[], rfl⟩
  | case2 arena index pending induction =>
      obtain ⟨pushed, free⟩ := induction
      exact ⟨pushed ++ [index], by rw [free, List.append_assoc]; rfl⟩

/-- Destroying a view comes to an end, and frees each slot on its way once. -/
theorem pushed_destroy (tidy : Tidy arena []) {view : ViewHandle}
    (alive : arena.isAlive view = true) :
    ∃ after pushed, arena.destroy view = .ok after ∧ after.free = pushed ++ arena.free ∧
      pushed.Nodup ∧ (∀ index ∈ pushed, arena.liveAt index = true ∧ after.liveAt index = false) ∧
      after.size + pushed.length = arena.size := by
  have live := liveAt_of_alive alive
  have done : Tidy ((arena.detachSlot view.slot).releaseAll [view.slot]) [] :=
    tidy_releaseAll (tidy_detached tidy _ live)
  obtain ⟨pushed, free⟩ := free_releaseAll (arena.detachSlot view.slot) [view.slot]
  have length := length_releaseAll (arena.detachSlot view.slot) [view.slot]
  have counted := length_slots tidy
  have recounted := length_slots done
  rw [free_detachSlot] at free
  rw [length_detachSlot] at length
  have unique := done.unique
  rw [free] at unique
  obtain ⟨pushedOnce, -, apart⟩ := List.nodup_append.mp unique
  refine ⟨_, pushed, (destroy_eq arena view).trans (if_pos alive), free, pushedOnce, ?_, ?_⟩
  · intro index listed
    have freed := (done.free index).mp (by rw [free]; exact List.mem_append_left _ listed)
    refine ⟨?_, freed.2⟩
    by_contra dead
    have waited := (tidy.free index).mpr ⟨length ▸ freed.1, eq_false_of_ne_true dead⟩
    exact apart index listed index waited rfl
  · rw [free, List.length_append] at recounted
    omega

/-- In every arena that operations can lead to, refused ones and moves below a view's own
descendants among them, what is kept of the views agrees. So a view that is destroyed frees no slot
twice, and a new view is put in no live slot. -/
theorem coherent_after (operations : List Operation) :
    let arena := ({} : Arena).after operations
    Coherent arena ∧
    (∀ view, arena.isAlive view = true →
      ∃ after pushed, arena.destroy view = .ok after ∧ after.free = pushed ++ arena.free ∧
        pushed.Nodup ∧
        (∀ index ∈ pushed, arena.liveAt index = true ∧ after.liveAt index = false) ∧
        after.size + pushed.length = arena.size) ∧
    ∀ view : State, ∃ index, arena.liveAt index = false ∧
      (arena.create view).1 = (arena.create view).2.handle index ∧
      ∀ other, other ≠ index → (arena.create view).2.slots[other]? = arena.slots[other]? := by
  intro arena
  have tidy : Tidy arena [] := tidy_after operations
  refine ⟨coherent_of_tidy tidy, fun view alive => pushed_destroy tidy alive, ?_⟩
  intro view
  refine ⟨arena.newSlot, newSlot_dead tidy, handle_create arena view, ?_⟩
  intro other elsewhere
  rw [slots_create tidy, if_neg elsewhere]

end SessionReplay.View.Arena
