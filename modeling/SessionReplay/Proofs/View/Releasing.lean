import SessionReplay.Proofs.View.Slots

/-!
Slots are released down along the lists of children. Whatever these lead to from a pending slot is
released, and nothing else, even where they lead back to a slot that is released already.
-/

namespace SessionReplay.View.Arena

open Relation (ReflTransGen)

variable {arena : Arena} {index above below : Nat}

/-- The lists of children lead from a slot down to another, in any number of steps. -/
def Leads (arena : Arena) : Nat → Nat → Prop :=
  ReflTransGen fun parent child => child ∈ arena.childrenAt parent

/-- A slot that nothing is known of any more, but when it was last used. -/
def released (slot : Slot) : Slot := { slot with alive := false, parent := none, children := [] }

theorem leads_of_release (leads : (arena.release index).Leads above below) :
    arena.Leads above below := by
  refine ReflTransGen.mono ?_ _ _ leads
  intro parent child listed
  rw [childrenAt_release] at listed
  split at listed
  case isTrue => exact absurd listed List.not_mem_nil
  case isFalse => exact listed

/-- A way down that the release cuts comes through the slot that is released, and goes on from one
of its children. -/
theorem leads_release (index : Nat) (leads : arena.Leads above below) :
    below = index ∨ (arena.release index).Leads above below ∨
      ∃ child ∈ arena.childrenAt index, (arena.release index).Leads child below := by
  induction leads with
  | refl => exact .inr (.inl .refl)
  | @tail between below _ listed induction =>
      by_cases here : between = index
      · subst here
        exact .inr (.inr ⟨below, listed, .refl⟩)
      · have kept : below ∈ (arena.release index).childrenAt between := by
          rw [childrenAt_release, if_neg here]
          exact listed
        rcases induction with same | leads | ⟨child, first, leads⟩
        · exact absurd same here
        · exact .inr (.inl (leads.tail kept))
        · exact .inr (.inr ⟨child, first, leads.tail kept⟩)

theorem pending_leads_iff (arena : Arena) (index : Nat) (pending : List Nat) (below : Nat) :
    (∃ root ∈ index :: pending, arena.Leads root below) ↔
      below = index ∨ ∃ root ∈ (arena.childrenAt index).reverse ++ pending,
        (arena.release index).Leads root below := by
  constructor
  · rintro ⟨root, waits, leads⟩
    rcases leads_release index leads with same | leads | ⟨child, listed, leads⟩
    · exact .inl same
    · rcases List.mem_cons.mp waits with rfl | waits
      · -- The released slot leads nowhere any more.
        refine .inl ?_
        rcases leads.cases_head with same | ⟨child, listed, -⟩
        · exact same.symm
        · rw [childrenAt_release, if_pos rfl] at listed
          exact absurd listed List.not_mem_nil
      · exact .inr ⟨root, List.mem_append_right _ waits, leads⟩
    · exact .inr ⟨child, List.mem_append_left _ (List.mem_reverse.mpr listed), leads⟩
  · rintro (rfl | ⟨root, waits, leads⟩)
    · exact ⟨below, List.mem_cons_self, .refl⟩
    · have leads := leads_of_release leads
      rcases List.mem_append.mp waits with listed | waits
      · exact ⟨index, List.mem_cons_self, leads.head (List.mem_reverse.mp listed)⟩
      · exact ⟨root, List.mem_cons_of_mem _ waits, leads⟩

open Classical in
theorem slots_releaseAll (arena : Arena) (pending : List Nat) (other : Nat) :
    (arena.releaseAll pending).slots[other]? = arena.slots[other]?.map fun slot =>
      if ∃ root ∈ pending, arena.Leads root other then released slot else slot := by
  fun_induction releaseAll arena pending with
  | case1 => simp
  | case2 arena index pending induction =>
      rw [induction, slots_release, Option.map_map]
      congr 1
      funext slot
      simp only [pending_leads_iff, Function.comp_apply]
      by_cases here : other = index
      · simp only [here, true_or, if_true]
        exact ite_self (released slot)
      · simp only [here, false_or, if_false]

theorem slots_released (leads : arena.Leads index below) :
    (arena.releaseAll [index]).slots[below]? = arena.slots[below]?.map released := by
  rw [slots_releaseAll]
  congr 1
  funext slot
  exact if_pos ⟨index, List.mem_singleton_self index, leads⟩

theorem slots_kept (apart : ¬ arena.Leads index below) :
    (arena.releaseAll [index]).slots[below]? = arena.slots[below]? := by
  have unreached : ¬ ∃ root ∈ [index], arena.Leads root below := by
    rintro ⟨root, waits, leads⟩
    exact apart (List.mem_singleton.mp waits ▸ leads)
  rw [slots_releaseAll]
  simp only [if_neg unreached]
  exact Option.map_id'

theorem releaseAll_leaf (leaf : arena.childrenAt index = []) :
    arena.releaseAll [index] = arena.release index := by
  rw [releaseAll, leaf]
  exact releaseAll.eq_1 _

end SessionReplay.View.Arena
