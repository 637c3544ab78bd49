import SessionReplay.Proofs.Document.Sameness
import Mathlib.Data.List.Sort

/-!
When there is nothing to change. The comparison of two documents is empty exactly when they have
the same nodes in the same order, each of the same kind, and masked alike wherever masking shows.
Place and paint are not compared, nor is the masking of a document node.
-/

namespace SessionReplay.Document

namespace Changes

theorem append_eq_empty_iff {first second : Changes} :
    first ++ second = {} ↔ first = {} ∧ second = {} := by
  obtain ⟨removes, adds, texts, attributes⟩ := first
  obtain ⟨otherRemoves, otherAdds, otherTexts, otherAttributes⟩ := second
  change append _ _ = _ ↔ _
  simp only [append, mk.injEq, List.append_eq_nil_iff]
  tauto

theorem records_eq_nil_iff {changes : Changes} : changes.records = [] ↔ changes = {} := by
  obtain ⟨removes, adds, texts, attributes⟩ := changes
  simp only [records, mk.injEq, List.append_eq_nil_iff]
  tauto

end Changes

section Staying

variable {formers children : List (Tree Node)}

theorem staying_length (formers children : List (Tree Node)) :
    (staying formers children).length = children.length := by
  rw [staying, keepMasked_length, List.length_map]

/-- When nothing is added every child stays. -/
theorem all_some_of_additions {parent : NodeId} {stay : List (Option Nat)}
    (length : stay.length = children.length) (none : additions parent children stay = []) :
    stay = (stay.filterMap id).map some := by
  induction children generalizing stay with
  | nil => rw [List.eq_nil_of_length_eq_zero length]; rfl
  | cons child children induction =>
      rcases stay with _ | ⟨_ | position, stay⟩
      · rfl
      · simp [additions] at none
      · exact congrArg (some position :: ·) (induction (Nat.succ.inj length) none)

/-- When nothing is removed every former child stays. -/
theorem mem_staying_of_removals {parent : NodeId} {stay : List (Option Nat)}
    (none : removals parent formers stay = []) {position : Nat}
    (inside : position < formers.length) :
    some position ∈ stay := by
  have listed : (formers[position], position) ∈ formers.zipIdx :=
    List.mem_zipIdx_iff_getElem?.mpr (List.getElem?_eq_getElem inside)
  have gone := List.filterMap_eq_nil_iff.mp none _ listed
  by_contra leaves
  simp [leaves] at gone

theorem inside_of_staying {position : Nat} (stays : some position ∈ staying formers children) :
    position < formers.length := by
  obtain ⟨index, kept⟩ := List.mem_iff_getElem?.mp stays
  have found := mem_zip_keepMasked kept
  rw [List.getElem?_map] at found
  obtain ⟨child, -, counterpart⟩ := Option.map_eq_some_iff.mp found
  obtain ⟨before, there, -⟩ := counterpart_spec counterpart
  exact (List.getElem?_eq_some_iff.mp there).1

/-- When nothing comes or goes, every child has stayed in its place. -/
theorem staying_of_nothing_moved {parent : NodeId}
    (removed : removals parent formers (staying formers children) = [])
    (added : additions parent children (staying formers children) = []) :
    staying formers children = (List.range formers.length).map some := by
  have all := all_some_of_additions (staying_length formers children) added
  have rising := rising_staying formers children
  have members : ∀ position,
      position ∈ (staying formers children).filterMap id ↔ position < formers.length := by
    intro position
    rw [List.mem_filterMap]
    constructor
    · rintro ⟨entry, member, rfl⟩
      exact inside_of_staying member
    · intro inside
      exact ⟨some position, mem_staying_of_removals removed inside, rfl⟩
  have positions : (staying formers children).filterMap id = List.range formers.length := by
    have distinct := rising.imp Nat.ne_of_lt
    apply List.Perm.eq_of_pairwise' (r := (· < ·)) rising List.pairwise_lt_range
    rw [List.perm_ext_iff_of_nodup distinct List.nodup_range]
    intro position
    rw [members, List.mem_range]
  rw [all, positions]

theorem forall₂_of_beside {related : Tree Node → Tree Node → Prop}
    (beside : Beside related (formers.map some) children) :
    List.Forall₂ related formers children := by
  induction formers generalizing children with
  | nil =>
      cases beside
      exact .nil
  | cons former formers induction =>
      cases beside with
      | kept first rest => exact .cons first (induction rest)

end Staying

theorem beside_of_changesBelow {related : Tree Node → Tree Node → Prop}
    {slots : List (Option (Tree Node))} {children : List (Tree Node)}
    (beside : Beside related slots children) (nothing : changesBelow slots children = {}) :
    Beside (fun before child => related before child ∧ changesAt before child = {})
      slots children := by
  induction beside with
  | nil => exact .nil
  | fresh child _ induction => exact .fresh child (induction nothing)
  | kept first _ induction =>
      obtain ⟨here, below⟩ := Changes.append_eq_empty_iff.mp nothing
      exact .kept ⟨first, here⟩ (induction below)

/-- Where nothing changes the documents are the same, node by node. -/
theorem matches_of_changesAt {previous current : Tree Node}
    (id : previous.data.id = current.data.id)
    (shape : previous.data.kind.sameShape current.data.kind)
    (nothing : changesAt previous current = {}) : Tree.Matches Same previous current := by
  induction current using Tree.children_induction generalizing previous with
  | step now children induction =>
      obtain ⟨former, formers⟩ := previous
      rw [changesAt, Changes.append_eq_empty_iff, Changes.append_eq_empty_iff] at nothing
      obtain ⟨⟨face, moved⟩, below⟩ := nothing
      have removed : removals now.id formers (staying formers children) = [] :=
        congrArg Changes.removes moved
      have added : additions now.id children (staying formers children) = [] :=
        congrArg Changes.adds moved
      have stay := staying_of_nothing_moved removed added
      have still : slots formers children = formers.map some := by
        rw [slots, stay, slots_in_place]
      have beside := beside_of_changesBelow (slots_matched formers children) below
      rw [still] at beside
      apply Tree.Matches.node ((faceChanges_eq_empty_iff id shape).mp face)
      apply forall₂_of_beside
      apply beside.imp
      rintro before child ⟨pair, unchanged⟩
      exact induction child pair.present pair.same pair.shape unchanged

/-- A document does not differ from another exactly when the two are the same node by node. Else
there is a record, or the roots do not fit. -/
theorem changes_eq_nil_iff {previous current : Tree Node} (apart : Apart previous) :
    (changes previous current = .ok [] ↔ Tree.Matches Same previous current) ∧
      changes previous previous = .ok [] ∧
      (¬Tree.Matches Same previous current →
        (∃ mismatch, changes previous current = .error mismatch) ∨
          ∃ record records, changes previous current = .ok (record :: records)) := by
  have exact_iff : changes previous current = .ok [] ↔ Tree.Matches Same previous current := by
    constructor
    · intro nothing
      obtain ⟨id, shape, records⟩ := changes_ok nothing
      exact matches_of_changesAt id shape (Changes.records_eq_nil_iff.mp records)
    · intro alike
      rw [changes, if_pos ⟨alike.data.id, alike.data.shape⟩, changesAt_of_matches apart alike]
      rfl
  refine ⟨exact_iff, changes_self apart, fun different => ?_⟩
  cases compared : changes previous current with
  | error mismatch => exact .inl ⟨mismatch, rfl⟩
  | ok records =>
      cases records with
      | nil => exact absurd (exact_iff.mp compared) different
      | cons record records => exact .inr ⟨record, records, rfl⟩

/-- A page with a title. -/
def titled (place : Rect) (covered : Bool) (title : String) : Tree Node :=
  .node { id := ⟨1⟩, kind := .document, frame := place, masked := covered }
    [.node { id := ⟨2⟩, kind := .element { tag := .div }, frame := place }
      [.node { id := ⟨3⟩, kind := .text title false, clip := place } []]]

theorem apart_titled (place : Rect) (covered : Bool) (title : String) :
    Apart (titled place covered title) := by
  intro part inside
  rcases inside with _ | ⟨member, inside⟩
  · exact List.nodup_singleton _
  · obtain rfl := List.mem_singleton.mp member
    rcases inside with _ | ⟨member, inside⟩
    · exact List.nodup_singleton _
    · obtain rfl := List.mem_singleton.mp member
      rcases inside with _ | ⟨member, -⟩
      · exact List.nodup_nil
      · contradiction

/-- The page has moved and its document node is masked now; then its title is another. -/
theorem changes_eq_nil_iff_titled :
    Apart (titled .zero false "a") ∧
      changes (titled .zero false "a") (titled ⟨0, 0, 10, 10⟩ true "a") = .ok [] ∧
      ((∃ mismatch, changes (titled .zero false "a") (titled .zero false "b") = .error mismatch) ∨
        ∃ record records,
          changes (titled .zero false "a") (titled .zero false "b") = .ok (record :: records)) := by
  have apart := apart_titled .zero false "a"
  refine ⟨apart, (changes_eq_nil_iff apart).1.mpr ?_, (changes_eq_nil_iff apart).2.2 ?_⟩
  · refine .node ⟨rfl, rfl, fun other => absurd rfl other⟩ (.cons ?_ .nil)
    refine .node ⟨rfl, rfl, fun _ => rfl⟩ (.cons ?_ .nil)
    exact .node ⟨rfl, rfl, fun _ => rfl⟩ .nil
  · intro alike
    rcases alike with ⟨-, _ | ⟨⟨-, _ | ⟨text, -⟩⟩, -⟩⟩
    exact absurd text.data.kind (by decide)

end SessionReplay.Document
