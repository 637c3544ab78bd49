import SessionReplay.Proofs.Capture.Reach
import Mathlib.Data.List.Basic
import Mathlib.Logic.Function.Basic
import Mathlib.Logic.Relation

/-!
The way up from a view, from parent to parent. Where it ends for every view, no view is inside
itself, and a view is reached from above in one way at most.
-/

namespace SessionReplay.View

open Function (update)
open Relation (ReflTransGen TransGen)

variable {parent less : ViewHandle → Option ViewHandle} {view above other : ViewHandle}

/-- The parents lead up from a view to another, in any number of steps. -/
def Climbs (parent : ViewHandle → Option ViewHandle) : ViewHandle → ViewHandle → Prop :=
  ReflTransGen fun view above => parent view = some above

/-- A view that is inside itself. -/
def OwnAncestor (parent : ViewHandle → Option ViewHandle) (view : ViewHandle) : Prop :=
  ∃ above, parent view = some above ∧ Climbs parent above view

/-- The way up from a view ends at one that has no parent. -/
inductive Rooted (parent : ViewHandle → Option ViewHandle) : ViewHandle → Prop
  | top {view : ViewHandle} (alone : parent view = none) : Rooted parent view
  | inside {view above : ViewHandle} (attached : parent view = some above)
      (rooted : Rooted parent above) : Rooted parent view

theorem Rooted.not_ownAncestor (rooted : Rooted parent view) : ¬ OwnAncestor parent view := by
  induction rooted with
  | top alone =>
      rintro ⟨above, attached, -⟩
      rw [alone] at attached
      contradiction
  | @inside view above attached _ induction =>
      rintro ⟨first, same, back⟩
      obtain rfl := Option.some.inj (attached.symm.trans same)
      -- The way around may as well begin one step further up.
      apply induction
      rcases back.cases_head with rfl | ⟨next, upward, back⟩
      · exact ⟨above, attached, .refl⟩
      · exact ⟨next, upward, back.tail attached⟩

/-- With fewer parents the ways up are no longer. -/
theorem Rooted.mono (rooted : Rooted parent view)
    (fewer : ∀ view above, less view = some above → parent view = some above) :
    Rooted less view := by
  induction rooted with
  | @top view alone =>
      cases attached : less view with
      | none => exact .top attached
      | some above =>
          rw [fewer view above attached] at alone
          contradiction
  | @inside view above attached _ induction =>
      cases kept : less view with
      | none => exact .top kept
      | some other =>
          obtain rfl := Option.some.inj (attached.symm.trans (fewer view other kept))
          exact .inside kept induction

theorem Rooted.update_none (rooted : Rooted parent other) (view : ViewHandle) :
    Rooted (update parent view none) other := by
  refine rooted.mono ?_
  intro below above attached
  by_cases here : below = view
  · rw [here, Function.update_self] at attached
    contradiction
  · rw [Function.update_of_ne here] at attached
    exact attached

theorem rooted_update_apart (rooted : Rooted parent other) (apart : ¬ Climbs parent other view)
    (attached : Option ViewHandle) : Rooted (update parent view attached) other := by
  induction rooted with
  | @top other alone =>
      have different : other ≠ view := by
        rintro rfl
        exact apart .refl
      exact .top ((Function.update_of_ne different _ _).trans alone)
  | @inside other above attached _ induction =>
      have different : other ≠ view := by
        rintro rfl
        exact apart .refl
      exact .inside ((Function.update_of_ne different _ _).trans attached)
        (induction fun climbs => apart (climbs.head attached))

/-- A new parent that is not itself inside the view leaves every way up finite. -/
theorem rooted_update (rooted : ∀ other, Rooted parent other) (apart : ¬ Climbs parent above view)
    (other : ViewHandle) : Rooted (update parent view (some above)) other := by
  have moved : Rooted (update parent view (some above)) view :=
    .inside (Function.update_self _ _ _) (rooted_update_apart (rooted above) apart _)
  induction rooted other with
  | @top other alone =>
      by_cases here : other = view
      · exact here ▸ moved
      · exact .top ((Function.update_of_ne here _ _).trans alone)
  | @inside other next attached _ induction =>
      by_cases here : other = view
      · exact here ▸ moved
      · exact .inside ((Function.update_of_ne here _ _).trans attached) induction

/-- Where the way up to a view begins does not depend on the view's own parent. -/
theorem climbs_update (climbs : Climbs parent above view) (attached : Option ViewHandle) :
    Climbs (update parent view attached) above view := by
  induction climbs using ReflTransGen.head_induction_on with
  | refl => exact .refl
  | @head other next upward _ induction =>
      by_cases here : other = view
      · exact here ▸ .refl
      · exact .head ((Function.update_of_ne here _ _).trans upward) induction

/-- A new parent that is inside the view puts the view inside itself. -/
theorem ownAncestor_update (climbs : Climbs parent above view) :
    OwnAncestor (update parent view (some above)) view :=
  ⟨above, Function.update_self _ _ _, climbs_update climbs _⟩

namespace Introspector

variable {source : Introspector}

theorem follow_concat (source : Introspector) (root : ViewHandle) (way : List Nat) (place : Nat) :
    source.follow root (way ++ [place]) =
      (source.follow root way).bind fun view => (source.children view)[place]? := by
  induction way generalizing root with
  | nil =>
      rw [List.nil_append, follow, follow]
      cases found : (source.children root)[place]? with
      | none => exact found.symm
      | some child => exact found.symm
  | cons first way induction =>
      rw [List.cons_append, follow, follow]
      cases (source.children root)[first]? with
      | none => rfl
      | some child => exact induction child

theorem reaches_iff (source : Introspector) (root view : ViewHandle) :
    source.Reaches root view ↔
      ReflTransGen (fun above child => child ∈ source.children above) root view := by
  constructor
  · rintro ⟨way, arrives⟩
    induction way generalizing root with
    | nil => exact Option.some.inj arrives ▸ .refl
    | cons place way induction =>
        rw [follow] at arrives
        split at arrives
        case h_1 child there => exact .head (List.mem_of_getElem? there) (induction child arrives)
        case h_2 => contradiction
  · intro leads
    induction leads with
    | refl => exact ⟨[], rfl⟩
    | tail _ listed induction =>
        obtain ⟨way, arrives⟩ := induction
        obtain ⟨place, there⟩ := List.mem_iff_getElem?.mp listed
        refine ⟨way ++ [place], ?_⟩
        rw [follow_concat, arrives]
        exact there

section Ancestry

variable (linked : ∀ view above, view ∈ source.children above ↔ parent view = some above)
include linked

theorem reaches_iff_climbs (root view : ViewHandle) :
    source.Reaches root view ↔ Climbs parent view root := by
  rw [reaches_iff, Climbs, ← Relation.reflTransGen_swap]
  simp only [linked]

theorem last_step {root : ViewHandle} {way : List Nat} {place : Nat}
    (arrives : source.follow root (way ++ [place]) = some view) :
    ∃ above, parent view = some above ∧ source.follow root way = some above ∧
      (source.children above)[place]? = some view := by
  rw [follow_concat] at arrives
  obtain ⟨above, halfway, there⟩ := Option.bind_eq_some_iff.mp arrives
  exact ⟨above, (linked view above).mp (List.mem_of_getElem? there), halfway, there⟩

theorem no_return (rooted : Rooted parent view) {way : List Nat}
    (arrives : source.follow view way = some view) : way = [] := by
  rcases List.eq_nil_or_concat' way with rfl | ⟨way, place, rfl⟩
  · rfl
  · obtain ⟨above, attached, halfway, -⟩ := last_step linked arrives
    have climbs := (reaches_iff_climbs linked view above).mp ⟨way, halfway⟩
    exact absurd ⟨above, attached, climbs⟩ rooted.not_ownAncestor

/-- Where the way up from a view ends, there is one way down to it. -/
theorem way_unique (once : ∀ view, (source.children view).Nodup) (rooted : Rooted parent view)
    {root : ViewHandle} {first second : List Nat} (one : source.follow root first = some view)
    (two : source.follow root second = some view) : first = second := by
  induction rooted generalizing first second with
  | @top view alone =>
      have none : ∀ way, source.follow root way = some view → way = [] := by
        intro way arrives
        rcases List.eq_nil_or_concat' way with rfl | ⟨way, place, rfl⟩
        · rfl
        · obtain ⟨above, attached, -⟩ := last_step linked arrives
          rw [alone] at attached
          contradiction
      rw [none first one, none second two]
  | @inside view above attached rooted induction =>
      have rootedView : Rooted parent view := .inside attached rooted
      rcases List.eq_nil_or_concat' first with rfl | ⟨first, place, rfl⟩
      · obtain rfl := Option.some.inj one
        exact (no_return linked rootedView two).symm
      · rcases List.eq_nil_or_concat' second with rfl | ⟨second, other, rfl⟩
        · obtain rfl := Option.some.inj two
          exact no_return linked rootedView one
        · obtain ⟨_, firstAttached, one, here⟩ := last_step linked one
          obtain ⟨_, secondAttached, two, there⟩ := last_step linked two
          obtain rfl := Option.some.inj (attached.symm.trans firstAttached)
          obtain rfl := Option.some.inj (attached.symm.trans secondAttached)
          have inside := (List.getElem?_eq_some_iff.mp here).1
          rw [induction one two, (List.getElem?_inj inside (once above)).mp (here.trans there.symm)]

theorem reachesOnce_of_rooted (once : ∀ view, (source.children view).Nodup)
    (rooted : ∀ view, Rooted parent view) (root : ViewHandle) : source.ReachesOnce root :=
  fun _ _ view one two => way_unique linked once (rooted view) one two

end Ancestry

end Introspector

end SessionReplay.View
