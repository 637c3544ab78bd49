import SessionReplay.Proofs.View.Store
import Mathlib.Data.List.Basic
import Mathlib.Data.List.Induction

/-!
How long a view is in the store: from the operation that makes it until one destroys it or a view
that holds it.
-/

namespace SessionReplay.View

open Relation (ReflTransGen)

/-- Operations that make a view, unless they are refused. -/
def Operation.makes : Operation → Bool
  | create .. | container .. | label .. | textField .. | imageView .. => true
  | destroy _ | addChild .. | insertChild .. | detach _ | set .. => false

namespace Store

variable {store : Store} {view other target : ViewHandle}

/-- Only the view that leaves its parent is missing from a list of children. -/
theorem mem_children_detach {parent : ViewHandle} (different : other ≠ view) :
    other ∈ (store.detach view).children parent ↔ other ∈ store.children parent := by
  unfold detach
  dsimp only
  split
  case isTrue => simp [different]
  case isFalse => rfl

/-- What a view holds it still holds when it has left its parent: a way that comes back to the view
can begin there. -/
theorem reaches_detach : (store.detach view).Reaches view other ↔ store.Reaches view other := by
  constructor
  · refine ReflTransGen.mono ?_ _ _
    intro parent child listed
    unfold detach at listed
    dsimp only at listed
    split at listed
    case isTrue => exact (List.mem_filter.mp listed).1
    case isFalse => exact listed
  · intro reaches
    induction reaches with
    | refl => exact .refl
    | @tail between child _ listed induction =>
        by_cases back : child = view
        · rw [back]
          exact .refl
        · exact induction.tail ((mem_children_detach back).mpr listed)

theorem there_create {kind : Kind} {frame : Rect} :
    (store.create view kind frame).There other ↔ other = view ∨ store.There other := by
  unfold There create
  by_cases here : other = view <;> simp [here]

theorem there_set {setting : Setting} :
    (store.set view setting).There other ↔ store.There other := by
  unfold There set
  by_cases here : other = view <;> simp [here]

theorem there_attached {place : Option ViewHandle} {kind : Kind} {frame : Rect} :
    (store.attached view place kind frame).There other ↔ other = view ∨ store.There other := by
  have placed : (store.attached view place kind frame).There other ↔
      (store.create view kind frame).There other := by
    cases place <;> rfl
  exact placed.trans there_create

theorem there_destroy :
    (store.destroy view).There other ↔ store.There other ∧ ¬ store.Reaches view other := by
  rw [← reaches_detach]
  unfold There destroy
  dsimp only
  by_cases reached : (store.detach view).Reaches view other
  · simp [reached]
  · simp only [reached, not_false_eq_true, and_true]
    rfl

/-- A view is there after an operation if it was made by it, or was there and is not destroyed. -/
theorem there_perform {entry : Entry} (complete : entry.made.isSome = entry.operation.makes) :
    (store.perform entry).There other ↔ entry.made = some other ∨
      store.There other ∧
        ∀ target, entry.operation = .destroy target → ¬ store.Reaches target other := by
  obtain ⟨operation, made⟩ := entry
  cases makes : operation.makes with
  | true =>
      rw [makes] at complete
      obtain ⟨view, rfl⟩ := Option.isSome_iff_exists.mp complete
      have unharmed : ∀ target, operation = .destroy target → ¬ store.Reaches target other := by
        rintro target rfl
        contradiction
      have made : (store.perform ⟨operation, some view⟩).There other ↔
          other = view ∨ store.There other := by
        cases operation <;> try contradiction
        case create => exact there_create
        case container => exact there_attached
        all_goals exact there_set.trans there_attached
      rw [made, Option.some.injEq, eq_comm]
      exact or_congr_right (and_iff_left unharmed).symm
  | false =>
      rw [makes] at complete
      obtain rfl := Option.isSome_eq_false_iff.mp complete |> Option.isNone_iff_eq_none.mp
      simp only [reduceCtorEq, false_or]
      cases operation <;> try contradiction
      case destroy view =>
        refine there_destroy.trans (and_congr_right fun _ => ?_)
        constructor
        · rintro apart target ⟨⟩
          exact apart
        · exact fun unharmed => unharmed view rfl
      case set view setting => exact there_set.trans (and_iff_left nofun).symm
      all_goals exact (and_iff_left nofun).symm

end Store

/-- To live is to have been made, and not to have been destroyed since. -/
theorem lives_concat {log : List Entry} {entry : Entry} {view : ViewHandle} :
    Lives (log ++ [entry]) view ↔ entry.made = some view ∨
      Lives log view ∧ ∀ target, entry.operation = .destroy target →
        ¬ (Store.after log).Reaches target view := by
  constructor
  · rintro ⟨before, first, later, whole, made, spared⟩
    rcases List.eq_nil_or_concat' later with rfl | ⟨older, last, rfl⟩
    · obtain ⟨rfl, same⟩ := List.append_inj' whole rfl
      exact .inl ((List.singleton_inj.mp same) ▸ made)
    · rw [← List.cons_append, ← List.append_assoc] at whole
      obtain ⟨rfl, same⟩ := List.append_inj' whole rfl
      obtain rfl := List.singleton_inj.mp same
      refine .inr ⟨⟨before, first, older, rfl, made, ?_⟩, spared older entry [] rfl⟩
      rintro middle last rest rfl
      exact spared middle last (rest ++ [entry]) (by simp)
  · rintro (made | ⟨⟨before, first, later, rfl, made, spared⟩, last⟩)
    · refine ⟨log, entry, [], rfl, made, ?_⟩
      intro middle last rest whole
      simp at whole
    · refine ⟨before, first, later ++ [entry], by simp, made, ?_⟩
      intro middle other rest whole
      rcases List.eq_nil_or_concat' rest with rfl | ⟨rest, final, rfl⟩
      · obtain ⟨rfl, same⟩ := List.append_inj' whole rfl
        obtain rfl := List.singleton_inj.mp same
        exact last
      · rw [← List.cons_append, ← List.append_assoc] at whole
        exact spared middle other rest (List.append_inj' whole rfl).1

/-- The store holds the views that live by what was done. -/
theorem there_iff_lives (log : List Entry)
    (complete : ∀ entry ∈ log, entry.made.isSome = entry.operation.makes) (view : ViewHandle) :
    (Store.after log).There view ↔ Lives log view := by
  induction log using List.reverseRecOn with
  | nil =>
      constructor
      · nofun
      · rintro ⟨before, first, later, whole, -⟩
        simp at whole
  | append_singleton log entry induction =>
      have earlier := induction fun other member => complete other (List.mem_append_left _ member)
      have last := complete entry (List.mem_append_right _ (List.mem_singleton_self entry))
      rw [Store.after_concat, Store.there_perform last, lives_concat, earlier]

end SessionReplay.View
