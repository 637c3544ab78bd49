import SessionReplay.Proofs.View.Coherence
import Mathlib.Algebra.Group.Nat.Defs

/-!
Handles tell slots and generations apart as long as both fit in half a handle. A slot counts its
generations up, so a new view has a handle that was never given, and an old one is not revived.
-/

namespace SessionReplay

namespace ViewHandle

theorem val_ofParts (slot generation : Nat) :
    (ofParts slot generation).val.toNat = (generation * 2 ^ 32 + slot) % 2 ^ 64 :=
  UInt64.toNat_ofNat'

theorem slot_ofParts {slot : Nat} (fits : slot < 2 ^ 32) (generation : Nat) :
    (ofParts slot generation).slot = slot := by
  rw [ViewHandle.slot, val_ofParts]
  change (generation * 2 ^ 32 + slot) % 2 ^ 64 % 2 ^ 32 = slot
  omega

theorem generation_ofParts {slot generation : Nat} (fits : slot < 2 ^ 32)
    (young : generation < 2 ^ 32) : (ofParts slot generation).generation = generation := by
  rw [ViewHandle.generation, val_ofParts]
  change (generation * 2 ^ 32 + slot) % 2 ^ 64 / 2 ^ 32 = generation
  omega

theorem ofParts_parts (view : ViewHandle) : ofParts view.slot view.generation = view := by
  obtain ⟨value⟩ := view
  refine congrArg ViewHandle.mk (UInt64.toNat_inj.mp ?_)
  have fits : value.toNat < 2 ^ 64 := value.toNat_lt
  rw [UInt64.toNat_ofNat']
  change (value.toNat / 2 ^ 32 * 2 ^ 32 + value.toNat % 2 ^ 32) % 2 ^ 64 = value.toNat
  omega

end ViewHandle

namespace View.Arena

variable {arena after : Arena}

theorem handle_of_generations
    (same : ∀ index, after.generationAt index = arena.generationAt index) :
    after.handle = arena.handle := by
  funext index
  exact congrArg (fun generation => ViewHandle.ofParts index (Option.getD generation 0))
    (same index)

theorem generationAt_releaseAll (arena : Arena) (pending : List Nat) (other : Nat) :
    (arena.releaseAll pending).generationAt other = arena.generationAt other := by
  fun_induction releaseAll arena pending with
  | case1 => rfl
  | case2 arena index pending induction => rw [induction, generationAt_release]

theorem generationAt_create (tidy : Tidy arena []) (view : State) (other : Nat) :
    (arena.create view).2.generationAt other =
      if other = arena.newSlot then some arena.newGeneration else arena.generationAt other := by
  rw [generationAt, slots_create tidy]
  split <;> rfl

/-- No slot was used more often than views were made, and each handle was given when its slot was
used for the time that the handle says. -/
structure Numbered (arena : Arena) (made : List ViewHandle) : Prop where
  bounded : ∀ index generation, arena.generationAt index = some generation →
    index < made.length ∧ generation < made.length
  given : ∀ view ∈ made, ∃ generation,
    arena.generationAt view.slot = some generation ∧ view.generation ≤ generation
  distinct : made.Nodup

theorem numbered_empty : Numbered {} [] where
  bounded := nofun
  given := nofun
  distinct := List.nodup_nil

theorem Numbered.kept {made : List ViewHandle} (numbered : Numbered arena made)
    (same : ∀ index, after.generationAt index = arena.generationAt index) :
    Numbered after made where
  bounded index := by
    rw [same]
    exact numbered.bounded index
  given view := by
    rw [same]
    exact numbered.given view
  distinct := numbered.distinct

section Creating

variable {made : List ViewHandle} (tidy : Tidy arena []) (numbered : Numbered arena made)
include numbered

theorem length_le_made : arena.slots.length ≤ made.length := by
  by_contra more
  have last : arena.slots.length - 1 < arena.slots.length := by omega
  have there : arena.generationAt (arena.slots.length - 1) =
      some arena.slots[arena.slots.length - 1].generation := by
    rw [generationAt, List.getElem?_eq_getElem last]
    rfl
  have bound := (numbered.bounded _ _ there).1
  omega

include tidy

/-- The slot of the next view was never used, or used in the generation before. -/
theorem newSlot_cases :
    arena.generationAt arena.newSlot = none ∧ arena.newSlot ≤ made.length ∧
        arena.newGeneration = 0 ∨
      ∃ generation, arena.generationAt arena.newSlot = some generation ∧
        arena.newGeneration = generation + 1 := by
  cases free : arena.free with
  | nil =>
      have last : arena.newSlot = arena.slots.length := by rw [newSlot, free]; rfl
      have beyond : arena.slots[arena.newSlot]? = none := by
        rw [last]
        exact List.getElem?_eq_none_iff.mpr (Nat.le_refl _)
      refine .inl ⟨by rw [generationAt, beyond]; rfl, ?_, by rw [newGeneration, beyond]⟩
      rw [last]
      exact length_le_made numbered
  | cons index rest =>
      have first : arena.newSlot = index := by rw [newSlot, free]; rfl
      have inside : arena.newSlot < arena.slots.length := by
        rw [first]
        apply ((tidy.free index).mp ?_).1
        rw [free]
        exact List.mem_cons_self
      have there := List.getElem?_eq_getElem inside
      exact .inr ⟨arena.slots[arena.newSlot].generation, by rw [generationAt, there]; rfl,
        by rw [newGeneration, there]⟩

theorem new_bounded : arena.newSlot ≤ made.length ∧ arena.newGeneration ≤ made.length := by
  rcases newSlot_cases tidy numbered with ⟨-, near, young⟩ | ⟨generation, used, next⟩
  · exact ⟨near, by omega⟩
  · have bounds := numbered.bounded _ _ used
    omega

theorem parts_create (few : made.length < 2 ^ 32) (view : State) :
    (arena.create view).1.slot = arena.newSlot ∧
      (arena.create view).1.generation = arena.newGeneration := by
  obtain ⟨near, young⟩ := new_bounded tidy numbered
  rw [create_handle tidy view]
  exact ⟨ViewHandle.slot_ofParts (by omega) _,
    ViewHandle.generation_ofParts (by omega) (by omega)⟩

/-- The new handle was not given before. -/
theorem numbered_create (few : made.length < 2 ^ 32) (view : State) :
    Numbered (arena.create view).2 (made ++ [(arena.create view).1]) := by
  obtain ⟨near, young⟩ := new_bounded tidy numbered
  obtain ⟨slot, generation⟩ := parts_create tidy numbered few view
  refine ⟨?_, ?_, ?_⟩
  · intro index count
    rw [generationAt_create tidy, List.length_append, List.length_singleton]
    split
    case isTrue here =>
      rintro ⟨⟩
      omega
    case isFalse elsewhere =>
      intro used
      have bounds := numbered.bounded index count used
      omega
  · intro other member
    rw [generationAt_create tidy]
    rcases List.mem_append.mp member with older | new
    · obtain ⟨count, used, before⟩ := numbered.given other older
      split
      case isTrue here =>
        rw [here] at used
        rcases newSlot_cases tidy numbered with ⟨unused, -⟩ | ⟨last, known, next⟩
        · rw [unused] at used
          contradiction
        · obtain rfl := Option.some.inj (known.symm.trans used)
          exact ⟨_, rfl, by omega⟩
      case isFalse => exact ⟨count, used, before⟩
    · rw [List.mem_singleton.mp new, slot, generation, if_pos rfl]
      exact ⟨_, rfl, Nat.le_refl _⟩
  · refine List.nodup_append.mpr ⟨numbered.distinct, List.nodup_singleton _, ?_⟩
    rintro older given new member rfl
    rw [List.mem_singleton.mp member] at given
    obtain ⟨count, used, before⟩ := numbered.given _ given
    rw [slot] at used
    rw [generation] at before
    rcases newSlot_cases tidy numbered with ⟨unused, -⟩ | ⟨last, known, next⟩
    · rw [unused] at used
      contradiction
    · obtain rfl := Option.some.inj (known.symm.trans used)
      omega

end Creating

end View.Arena

end SessionReplay
