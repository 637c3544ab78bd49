import SessionReplay.Proofs.Capture.Numbering
import SessionReplay.Proofs.Capture.Walk
import Mathlib.Data.List.Chain

/-!
Whether what is captured of a view is masked. It is decided on the way from the view up to the
root, and by the content of the view where nothing on the way decides.
-/

namespace SessionReplay.Capture

/-- The views on a way down through what was seen. -/
def views (branch : List Sighting) : List ViewHandle :=
  branch.filterMap fun sighting =>
    if sighting.key.role = .view then some sighting.key.view else none

namespace Surveyor

/-- The content of a view that can be looked into; any other view is a container. -/
def contentOf (surveyor : Surveyor) (view : ViewHandle) : Masking.Content :=
  match surveyor.source.kind view, surveyor.source.text view, surveyor.source.image view with
  | .ok .text, .ok _, _ => .text
  | .ok .input, .ok _, _ => .input
  | .ok .image, _, .ok _ => .image
  | _, _, _ => .container

/-- The first declaration on the way up from a view that decides, or else the default. -/
def masks (surveyor : Surveyor) (content : Masking.Content) (upward : List ViewHandle) : Bool :=
  ((upward.filterMap surveyor.source.masking).findSome? surveyor.rules.decide?).getD
    (surveyor.rules.defaults.of content)

variable {surveyor : Surveyor}

theorem contentOf_of_answers {view : ViewHandle} {kind : View.Kind} {portrait : Portrait}
    (told : surveyor.source.kind view = .ok kind)
    (answered : surveyor.portrait view kind = .ok portrait) :
    surveyor.contentOf view = kind.content := by
  rcases portrait_cases answered with ⟨rfl, -⟩ | ⟨name, rfl, -⟩ | ⟨content, rfl, text, -⟩ |
    ⟨content, rfl, text, -⟩ | ⟨image, rfl, image, -⟩ <;>
    simp_all [contentOf, View.Kind.content]

theorem contentOf_of_fails {view : ViewHandle} (fails : surveyor.Fails view) :
    surveyor.contentOf view = .container := by
  unfold contentOf
  split
  case h_1 content kind text =>
    obtain ⟨cause, failed⟩ := fails .text kind
    rw [portrait, text] at failed
    contradiction
  case h_2 content kind text =>
    obtain ⟨cause, failed⟩ := fails .input kind
    rw [portrait, text] at failed
    contradiction
  case h_3 image kind picture =>
    obtain ⟨cause, failed⟩ := fails .image kind
    rw [portrait, picture] at failed
    contradiction
  case h_4 => rfl

/-- What is known of a branch of what was seen from a view, below views with declarations. -/
structure Descends (surveyor : Surveyor) (view : ViewHandle) (inherited : List Masking)
    (branch : List Sighting) (last : Sighting) : Prop where
  ends : branch.getLast? = some last
  starts : (views branch).head? = some view
  steps : (views branch).IsChain fun outer inner => inner ∈ surveyor.source.children outer
  arrives : (views branch).getLast? = some last.key.view
  masked : last.face.masked = surveyor.rules.resolve
    (if last.face.kind.isTruncated then .container else surveyor.contentOf last.key.view)
    ((views branch).reverse.filterMap surveyor.source.masking ++ inherited)
  text : last.key.role = .text → ∃ above wrapper, branch = above ++ [wrapper, last] ∧
    wrapper.key = ⟨last.key.view, .view⟩ ∧ last.face.masked = wrapper.face.masked

theorem views_cons {sighting : Sighting} {view : ViewHandle} (key : sighting.key = ⟨view, .view⟩)
    (branch : List Sighting) : views (sighting :: branch) = view :: views branch := by
  simp [views, key]

theorem filterMap_masking_cons (view : ViewHandle) (upward : List ViewHandle)
    (inherited : List Masking) :
    (view :: upward).reverse.filterMap surveyor.source.masking ++ inherited =
      upward.reverse.filterMap surveyor.source.masking ++
        surveyor.declarations view inherited := by
  cases own : surveyor.source.masking view <;> simp [declarations, own]

theorem descends_alone {view : ViewHandle} {inherited : List Masking} {sighting : Sighting}
    (key : sighting.key = ⟨view, .view⟩)
    (masked : sighting.face.masked = surveyor.rules.resolve
      (if sighting.face.kind.isTruncated then .container else surveyor.contentOf view)
      (surveyor.declarations view inherited)) :
    surveyor.Descends view inherited [sighting] sighting where
  ends := rfl
  starts := by simp [views_cons key]
  steps := by
    rw [views_cons key]
    exact List.IsChain.singleton view
  arrives := by simp [views, key]
  masked := by
    rw [views_cons key, filterMap_masking_cons, masked, key]
    rfl
  text := by
    rw [key]
    intro role
    contradiction

theorem descends_text {view : ViewHandle} {inherited : List Masking} {sighting text : Sighting}
    (wrapper : surveyor.Descends view inherited [sighting] sighting)
    (key : sighting.key = ⟨view, .view⟩) (textKey : text.key = ⟨view, .text⟩)
    (plain : sighting.face.kind.isTruncated = false)
    (textPlain : text.face.kind.isTruncated = false)
    (masked : text.face.masked = sighting.face.masked) :
    surveyor.Descends view inherited [sighting, text] text := by
  have same : views [sighting, text] = views [sighting] := by
    simp [views, key, textKey]
  refine ⟨rfl, same ▸ wrapper.starts, same ▸ wrapper.steps, ?_, ?_, ?_⟩
  · rw [same, wrapper.arrives, key, textKey]
  · rw [same, masked, wrapper.masked, plain, textPlain, key, textKey]
  · intro _
    exact ⟨[], sighting, rfl, by rw [key, textKey], masked⟩

theorem Descends.below {view child : ViewHandle} {inherited : List Masking}
    {sighting last : Sighting} {branch : List Sighting}
    (inner : surveyor.Descends child (surveyor.declarations view inherited) branch last)
    (key : sighting.key = ⟨view, .view⟩) (offspring : child ∈ surveyor.source.children view) :
    surveyor.Descends view inherited (sighting :: branch) last where
  ends := by
    rw [List.getLast?_cons, inner.ends]
    rfl
  starts := by simp [views_cons key]
  steps := by
    rw [views_cons key, List.isChain_cons]
    refine ⟨?_, inner.steps⟩
    intro next front
    rw [inner.starts] at front
    exact Option.some.inj front ▸ offspring
  arrives := by
    rw [views_cons key, List.getLast?_cons, inner.arrives]
    rfl
  masked := by
    rw [views_cons key, filterMap_masking_cons]
    exact inner.masked
  text := by
    intro role
    obtain ⟨above, wrapper, rfl, wrapped, same⟩ := inner.text role
    exact ⟨sighting :: above, wrapper, rfl, wrapped, same⟩

theorem visit_descends (levels depth : Nat) (place : Placement) (inherited : List Masking)
    (view : ViewHandle) (tally : Tally) :
    ∀ branch ∈ (surveyor.visit levels depth place inherited view tally).1.branches,
      ∃ last, surveyor.Descends view inherited branch last := by
  refine visit_induction (motive := fun _ _ _ inherited view tree => ∀ branch ∈ tree.branches,
    ∃ last, surveyor.Descends view inherited branch last) ?terminal ?placeholder ?element levels
    depth place inherited view tally
  case terminal =>
    intro levels depth place inherited view limit tally branch member
    have marked : ((∅ : Attributes).insert truncationMark "true").contains truncationMark := by
      simp
    obtain rfl : branch = _ := by simpa [terminal, Tree.branches, Tree.branchesAll] using member
    refine ⟨_, descends_alone rfl ?_⟩
    simp [plainFace, Kind.isTruncated, marked]
  case placeholder =>
    intro levels depth place inherited view frame paint reports tally fails branch member
    obtain rfl : branch = _ := by simpa [placeholder, Tree.branches, Tree.branchesAll] using member
    refine ⟨_, descends_alone rfl ?_⟩
    simp [plainFace, contentOf_of_fails fails]
  case element =>
    intro levels depth place inherited view kind portrait seen children told answered first below
      face reports branch member
    have content := contentOf_of_answers told answered
    have plain : face.kind.isTruncated = false := by
      rw [← Bool.not_eq_true]
      intro marked
      exact (portrait_attributes answered).2 (Std.ExtTreeMap.contains_iff_mem.mp marked)
    have alone : surveyor.Descends view inherited [{ key := ⟨view, .view⟩, face, reports }]
        { key := ⟨view, .view⟩, face, reports } := by
      apply descends_alone rfl
      rw [plain, content]
      rfl
    rcases Tree.mem_branches_node.mp member with rfl | ⟨child, inside, rest, under, rfl⟩
    · exact ⟨_, alone⟩
    · rcases List.mem_append.mp inside with text | visited
      · obtain ⟨shown, rfl⟩ := mem_textNodes text
        obtain rfl : rest = _ := by simpa [Tree.branches, Tree.branchesAll] using under
        exact ⟨_, descends_text alone rfl rfl plain rfl rfl⟩
      · obtain ⟨next, came, known⟩ := exists_of_forall₂ below visited
        obtain ⟨last, inner⟩ := known rest under
        exact ⟨last, inner.below rfl (first.subset came)⟩

end Surveyor

end SessionReplay.Capture
