import SessionReplay.Proofs.Document.Changes
import SessionReplay.Proofs.Tree.Edit

/-!
From one document to the next by edits. The documents may be shown in any form that gives each
node a key of its own. Between the two lies a blend: the shape of the current document, with the
nodes that stay still as they were. The removals lead to what the blend has of the previous
document, the additions to the whole blend, and the new texts and attributes to the current
document.
-/

namespace SessionReplay.Document

open SessionReplay.Tree (keys play)

section Blend

variable {α : Type v}

/-- What becomes of siblings: `kept` of those that stay, and `fresh` of those that are new. -/
def weave (kept : Tree Node → Tree Node → Tree α) (fresh : Tree Node → List (Tree α)) :
    List (Option (Tree Node)) → List (Tree Node) → List (Tree α)
  | some before :: slots, child :: children => kept before child :: weave kept fresh slots children
  | none :: slots, child :: children => fresh child ++ weave kept fresh slots children
  | _, _ => []

mutual

/-- The current document, with `pick` of its nodes that stay and `fresh` of the new subtrees. -/
def blend (fresh : Tree Node → List (Tree α)) (pick : Node → Node → α) (previous : Tree Node) :
    Tree Node → Tree α
  | .node now children =>
      .node (pick previous.data now)
        (blendBelow fresh pick (slots previous.children children) children)

def blendBelow (fresh : Tree Node → List (Tree α)) (pick : Node → Node → α) :
    List (Option (Tree Node)) → List (Tree Node) → List (Tree α)
  | some before :: slots, child :: children =>
      blend fresh pick before child :: blendBelow fresh pick slots children
  | none :: slots, child :: children => fresh child ++ blendBelow fresh pick slots children
  | _, _ => []

end

variable {fresh : Tree Node → List (Tree α)} {pick : Node → Node → α}

theorem blendBelow_eq_weave (slots : List (Option (Tree Node))) (children : List (Tree Node)) :
    blendBelow fresh pick slots children = weave (blend fresh pick) fresh slots children := by
  induction children generalizing slots with
  | nil => rcases slots with _ | ⟨_ | _, _⟩ <;> rfl
  | cons child children induction =>
      rcases slots with _ | ⟨_ | before, slots⟩ <;> simp [blendBelow, weave, induction]

theorem blend_node (previous : Tree Node) (now : Node) (children : List (Tree Node)) :
    blend fresh pick previous (.node now children) =
      .node (pick previous.data now)
        (weave (blend fresh pick) fresh (slots previous.children children) children) := by
  rw [blend, blendBelow_eq_weave]

theorem weave_current {slots : List (Option (Tree Node))} {children : List (Tree Node)}
    (length : slots.length = children.length) (now : Tree Node → Tree α) :
    weave (fun _ child => now child) (fun child => [now child]) slots children =
      children.map now := by
  induction slots generalizing children with
  | nil => rw [List.eq_nil_of_length_eq_zero length.symm]; rfl
  | cons slot slots induction =>
      cases children with
      | nil => contradiction
      | cons child children =>
          have rest := induction (Nat.succ.inj length)
          cases slot <;> simp [weave, rest]

theorem weave_congr {kept kept' : Tree Node → Tree Node → Tree α}
    {fresh : Tree Node → List (Tree α)} {slots : List (Option (Tree Node))}
    {children : List (Tree Node)}
    (same : Beside (fun before child => kept before child = kept' before child) slots children) :
    weave kept fresh slots children = weave kept' fresh slots children := by
  induction same with
  | nil => rfl
  | fresh child _ induction => rw [weave, weave, induction]
  | kept first _ induction => rw [weave, weave, first, induction]

/-- With nothing for the new ones, the former siblings that stay are left. -/
theorem weave_former {slots : List (Option (Tree Node))} {children : List (Tree Node)}
    (length : slots.length = children.length) (former : Tree Node → Tree α) :
    weave (fun before _ => former before) (fun _ => []) slots children =
      (slots.filterMap id).map former := by
  induction slots generalizing children with
  | nil => rfl
  | cons slot slots induction =>
      cases children with
      | nil => contradiction
      | cons child children =>
          have rest := induction (Nat.succ.inj length)
          cases slot <;> simp [weave, rest]

end Blend

section Play

variable {κ : Type u} {α : Type v} {key : α → κ} {name : NodeId → κ} {shown : Node → α}

theorem keys_map (shown : Node → α) (labelled : ∀ node, key (shown node) = name node.id)
    (tree : Tree Node) : (tree.map shown).keys key = (ids tree).map name := by
  simp [keys, ids, Tree.preorder_map, labelled]

theorem keys_weave_sublist {kept outline : Tree Node → Tree Node → Tree α}
    {fresh freshOutline : Tree Node → List (Tree α)} {slots : List (Option (Tree Node))}
    {children : List (Tree Node)}
    (keptInside : Beside (fun before child =>
      ((kept before child).keys key).Sublist ((outline before child).keys key)) slots children)
    (freshInside : ∀ child,
      ((fresh child).flatMap (keys key)).Sublist ((freshOutline child).flatMap (keys key))) :
    ((weave kept fresh slots children).flatMap (keys key)).Sublist
      ((weave outline freshOutline slots children).flatMap (keys key)) := by
  induction keptInside with
  | nil => exact List.Sublist.refl _
  | fresh child _ induction =>
      simp only [weave, List.flatMap_append]
      exact (freshInside child).append induction
  | kept first _ induction =>
      simp only [weave, List.flatMap_cons]
      exact first.append induction

variable [DecidableEq κ]

/-- Edits that lead from one subtree to another and stay within an outline of both. -/
structure Passage (key : α → κ) (edits : List (Edit κ α)) (outline first last : Tree α) : Prop where
  named : ∀ edit ∈ edits, ∀ label ∈ edit.names key, label ∈ outline.keys key
  starts : (first.keys key).Sublist (outline.keys key)
  ends : (last.keys key).Sublist (outline.keys key)
  played : first.play key edits = some last

/-- The siblings in `done` have made their passage already. -/
theorem play_weave_from {part : Changes → List Record} (additive : Additive part)
    (edits : Record → List (Edit κ α)) {outline first last : Tree Node → Tree Node → Tree α}
    {fresh : Tree Node → List (Tree α)} {slots : List (Option (Tree Node))}
    {children : List (Tree Node)}
    (passages : Beside (fun before child =>
      Passage key ((part (changesAt before child)).flatMap edits) (outline before child)
        (first before child) (last before child)) slots children)
    {data : α} (done doneOutline : List (Tree α))
    (doneInside : (done.flatMap (keys key)).Sublist (doneOutline.flatMap (keys key)))
    (distinct : ((Tree.node data (doneOutline ++ weave outline fresh slots children)).keys
      key).Nodup) :
    (Tree.node data (done ++ weave first fresh slots children)).play key
        ((part (changesBelow slots children)).flatMap edits) =
      some (.node data (done ++ weave last fresh slots children)) := by
  induction passages generalizing done doneOutline with
  | nil => simp [changesBelow, additive.empty, play, weave]
  | fresh child _ induction =>
      have grown : ((done ++ fresh child).flatMap (keys key)).Sublist
          ((doneOutline ++ fresh child).flatMap (keys key)) := by
        simp only [List.flatMap_append]
        exact doneInside.append (List.Sublist.refl _)
      simp only [weave, ← List.append_assoc] at distinct ⊢
      exact induction _ _ grown distinct
  | @kept slots children before child here passages induction =>
      have rest : ((weave first fresh slots children).flatMap (keys key)).Sublist
          ((weave outline fresh slots children).flatMap (keys key)) :=
        keys_weave_sublist (passages.imp fun _ _ known => known.starts)
          fun _ => List.Sublist.refl _
      have regrouped := (Tree.keys_node_child key data doneOutline
        (weave outline fresh slots children) (outline before child)).nodup_iff.mp distinct
      have siblings :
          (Tree.siblingKeys key data done (weave first fresh slots children)).Sublist
          (Tree.siblingKeys key data doneOutline (weave outline fresh slots children)) :=
        (doneInside.append rest).cons_cons _
      have apart : ∀ edit ∈ (part (changesAt before child)).flatMap edits,
          ∀ label ∈ edit.names key,
          label ∉ Tree.siblingKeys key data done (weave first fresh slots children) := by
        intro edit member label named outside
        exact (List.nodup_append.mp regrouped).2.2 label (here.named edit member label named)
          label (siblings.subset outside) rfl
      -- The outline bounds the keys of every sibling, before and after its own passage.
      have nowDistinct : ((Tree.node data (done ++ first before child ::
          weave first fresh slots children)).keys key).Nodup :=
        (Tree.keys_node_child key data done _ _).nodup_iff.mpr
          ((here.starts.append siblings).nodup regrouped)
      have grown : ((done ++ [last before child]).flatMap (keys key)).Sublist
          ((doneOutline ++ [outline before child]).flatMap (keys key)) := by
        simp only [List.flatMap_append, List.flatMap_cons, List.flatMap_nil, List.append_nil]
        exact doneInside.append here.ends
      rw [changesBelow, additive.append, List.flatMap_append, Tree.play_append]
      simp only [weave]
      rw [Tree.play_child nowDistinct apart, here.played, Option.map_some, Option.bind_some]
      have step := induction _ _ grown (by simpa [weave] using distinct)
      simpa using step

/-- The passages of the children that stay make a passage of all the siblings. -/
theorem play_weave {part : Changes → List Record} (additive : Additive part)
    (edits : Record → List (Edit κ α)) {outline first last : Tree Node → Tree Node → Tree α}
    {fresh : Tree Node → List (Tree α)} {slots : List (Option (Tree Node))}
    {children : List (Tree Node)}
    (passages : Beside (fun before child =>
      Passage key ((part (changesAt before child)).flatMap edits) (outline before child)
        (first before child) (last before child)) slots children) {data : α}
    (distinct : ((Tree.node data (weave outline fresh slots children)).keys key).Nodup) :
    (Tree.node data (weave first fresh slots children)).play key
        ((part (changesBelow slots children)).flatMap edits) =
      some (.node data (weave last fresh slots children)) :=
  play_weave_from additive edits passages [] [] (List.Sublist.refl _) distinct

/-- The edits that a record stands for. Its new content is written by `content`. -/
def editsOf (name : NodeId → κ) (shown : Node → α) (content : Record → List (Edit κ α)) :
    Record → List (Edit κ α)
  | .remove parent id => [.remove (name parent) (name id)]
  | .add parent next subtree => [.add (name parent) (next.map name) (subtree.map shown)]
  | .text id text masked => content (.text id text masked)
  | .attributes id masked attributes style => content (.attributes id masked attributes style)

variable (content : Record → List (Edit κ α))

omit [DecidableEq κ] in
theorem flatMap_removals (parent : NodeId) (previous : List (Tree Node))
    (stay : List (Option Nat)) :
    (removals parent previous stay).flatMap (editsOf name shown content) =
      ((leaving previous stay).map name).map (Edit.remove (name parent)) := by
  rw [removals_eq_map_leaving, List.flatMap_map, List.map_map]
  exact List.flatMap_pure_eq_map _ _

/-- Of the former children those are left that stay. -/
theorem play_leaving (labelled : ∀ node, key (shown node) = name node.id)
    (injective : Function.Injective name) {old : Node} {parent : NodeId} (same : old.id = parent)
    {formers : List (Tree Node)} (siblings : (formers.map (·.data.id)).Nodup)
    (children : List (Tree Node)) :
    (Tree.node (shown old) (formers.map (Tree.map shown))).play key
        ((removals parent formers (staying formers children)).flatMap
          (editsOf name shown content)) =
      some (.node (shown old) (weave (fun before _ => before.map shown) (fun _ => [])
        (slots formers children) children)) := by
  have root : key (shown old) = name parent := (labelled old).trans (congrArg name same)
  have departing := leaving_sublist formers (staying formers children)
  have left : (formers.map (Tree.map shown)).filter (fun child => key child.data ∉
      (leaving formers (staying formers children)).map name) =
      weave (fun before _ => before.map shown) (fun _ => []) (slots formers children)
        children := by
    rw [weave_former (slots_matched formers children).length_eq, ← filter_leaving children siblings,
      List.filter_map]
    apply congrArg
    apply List.filter_congr
    intro child _
    simp only [Function.comp_apply, Tree.data_map, labelled, List.mem_map_of_injective injective]
  rw [flatMap_removals, Tree.play_removals root, left]
  · exact (departing.nodup siblings).map injective
  · intro label member
    obtain ⟨id, gone, rfl⟩ := List.mem_map.mp member
    obtain ⟨child, inside, rfl⟩ := List.mem_map.mp (departing.subset gone)
    exact List.mem_map.mpr
      ⟨child.map shown, List.mem_map_of_mem inside, by rw [Tree.data_map, labelled]⟩

theorem passage_removes (labelled : ∀ node, key (shown node) = name node.id)
    {previous current : Tree Node} (same : previous.data.id = current.data.id) {last : Tree α}
    (played : (previous.map shown).play key ((changesAt previous current).removes.flatMap
      (editsOf name shown content)) = some last) :
    Passage key ((changesAt previous current).removes.flatMap (editsOf name shown content))
      (previous.map shown) (previous.map shown) last := by
  refine ⟨?_, List.Sublist.refl _, Tree.keys_play_remove ?_ played, played⟩
  · intro edit member label named
    obtain ⟨record, here, made⟩ := List.mem_flatMap.mp member
    obtain ⟨parent, id, rfl, known⟩ := mem_removes same here
    rw [List.mem_singleton.mp made, Edit.names, List.mem_singleton] at named
    rw [named, keys_map shown labelled]
    exact List.mem_map_of_mem known
  · intro edit member
    obtain ⟨record, here, made⟩ := List.mem_flatMap.mp member
    obtain ⟨parent, id, rfl, -⟩ := mem_removes same here
    exact ⟨name parent, name id, List.mem_singleton.mp made⟩

theorem play_removes (labelled : ∀ node, key (shown node) = name node.id)
    (injective : Function.Injective name) {previous current : Tree Node}
    (same : previous.data.id = current.data.id) (distinct : (ids previous).Nodup) :
    (previous.map shown).play key
        ((changesAt previous current).removes.flatMap (editsOf name shown content)) =
      some (blend (fun _ => []) (fun old _ => shown old) previous current) := by
  induction current using Tree.children_induction generalizing previous with
  | step now children induction =>
      obtain ⟨old, formers⟩ := previous
      have inner : (formers.flatMap ids).Nodup := by
        rw [ids_node] at distinct
        exact (List.nodup_cons.mp distinct).2
      have siblings : (formers.map (·.data.id)).Nodup :=
        (Tree.root_keys_sublist Node.id formers).nodup inner
      have own := play_leaving content labelled injective same siblings children
      have passages : Beside (fun before child =>
          Passage key ((changesAt before child).removes.flatMap (editsOf name shown content))
            (before.map shown) (before.map shown)
            (blend (fun _ => []) (fun old _ => shown old) before child))
          (slots formers children) children := by
        apply (slots_matched formers children).imp
        intro before child pair
        apply passage_removes content labelled pair.same
        exact induction child pair.present pair.same ((ids_child pair.former).nodup distinct)
      have keysFormer :
          ((Tree.node (shown old) (formers.map (Tree.map shown))).keys key).Nodup := by
        have images := keys_map shown labelled (.node old formers)
        rw [Tree.map_node] at images
        rw [images]
        exact distinct.map injective
      have removalsOnly : ∀ edit ∈ (removals now.id formers (staying formers children)).flatMap
          (editsOf name shown content), ∃ parent target, edit = Edit.remove parent target := by
        rw [flatMap_removals]
        intro edit member
        obtain ⟨label, -, rfl⟩ := List.mem_map.mp member
        exact ⟨name now.id, label, rfl⟩
      have outlined := (Tree.keys_play_remove removalsOnly own).nodup keysFormer
      have all := play_weave additive_removes (editsOf name shown content) passages outlined
      rw [changesAt, additive_removes.append, additive_removes.append,
        (faceChanges_moves_nothing _ now).1, List.nil_append, List.flatMap_append, Tree.play_append,
        Tree.map_node, blend_node]
      exact (congrArg (Option.bind · _) own).trans all

omit [DecidableEq κ] in
/-- What becomes of siblings stays within the current document. -/
theorem keys_weave_inside {kept : Tree Node → Tree Node → Tree α}
    {fresh : Tree Node → List (Tree α)} {slots : List (Option (Tree Node))}
    {children : List (Tree Node)}
    (keptInside : Beside (fun before child =>
      ((kept before child).keys key).Sublist ((child.map shown).keys key)) slots children)
    (freshInside : ∀ child, ((fresh child).flatMap (keys key)).Sublist
      ((child.map shown).keys key)) :
    ((weave kept fresh slots children).flatMap (keys key)).Sublist
      ((children.map (Tree.map shown)).flatMap (keys key)) := by
  rw [← weave_current keptInside.length_eq]
  apply keys_weave_sublist keptInside
  intro child
  simpa using freshInside child

omit [DecidableEq κ] in
theorem keys_blend_sublist (labelled : ∀ node, key (shown node) = name node.id)
    {fresh : Tree Node → List (Tree α)} {pick : Node → Node → α}
    (picked : ∀ old new : Node, old.id = new.id → key (pick old new) = name new.id)
    (freshInside : ∀ child, ((fresh child).flatMap (keys key)).Sublist ((child.map shown).keys key))
    {previous current : Tree Node} (same : previous.data.id = current.data.id) :
    ((blend fresh pick previous current).keys key).Sublist ((current.map shown).keys key) := by
  induction current using Tree.children_induction generalizing previous with
  | step now children induction =>
      have keptInside : Beside (fun before child =>
          ((blend fresh pick before child).keys key).Sublist ((child.map shown).keys key))
          (slots previous.children children) children := by
        apply (slots_matched previous.children children).imp
        intro before child pair
        exact induction child pair.present pair.same
      have root : key (pick previous.data now) = name now.id := picked _ _ same
      rw [blend_node, Tree.map_node, Tree.keys_node, Tree.keys_node, root, labelled]
      exact (keys_weave_inside keptInside freshInside).cons_cons _

omit [DecidableEq κ] in
/-- Also with the new subtrees in it. -/
theorem keys_blend_whole_sublist (labelled : ∀ node, key (shown node) = name node.id)
    {pick : Node → Node → α}
    (picked : ∀ old new : Node, old.id = new.id → key (pick old new) = name new.id)
    {previous current : Tree Node} (same : previous.data.id = current.data.id) :
    ((blend (fun child => [child.map shown]) pick previous current).keys key).Sublist
      ((current.map shown).keys key) := by
  apply keys_blend_sublist labelled picked _ same
  intro child
  rw [List.flatMap_singleton]

omit [DecidableEq κ] in
theorem outline_distinct (labelled : ∀ node, key (shown node) = name node.id)
    (injective : Function.Injective name) {now : Node} {children : List (Tree Node)}
    (distinct : (ids (.node now children)).Nodup) {data : α} (root : key data = name now.id) :
    ((Tree.node data (children.map (Tree.map shown))).keys key).Nodup := by
  have images := keys_map shown labelled (.node now children)
  rw [Tree.map_node, Tree.keys_node, labelled, ← root] at images
  rw [Tree.keys_node, images]
  exact distinct.map injective

theorem stays_iff (previous current : List (Tree Node)) :
    (slots previous current).map Option.isSome = (staying previous current).map Option.isSome := by
  rw [slots, List.map_map]
  apply List.map_congr_left
  intro position member
  cases position with
  | none => rfl
  | some position =>
      obtain ⟨index, inside, there⟩ := List.mem_iff_getElem.mp member
      have kept : (staying previous current)[index]? = some (some position) := by
        rw [← there]
        exact List.getElem?_eq_getElem inside
      have found := mem_zip_keepMasked kept
      rw [List.getElem?_map] at found
      obtain ⟨child, -, search⟩ := Option.map_eq_some_iff.mp found
      obtain ⟨before, place, -, -⟩ := counterpart_spec search
      simp [place]

omit [DecidableEq κ] in
theorem head_weave (labelled : ∀ node, key (shown node) = name node.id)
    {kept : Tree Node → Tree Node → Tree α} {slots : List (Option (Tree Node))}
    {children : List (Tree Node)}
    (roots : Beside (fun before child => key (kept before child).data = name child.data.id) slots
      children) :
    (weave kept (fun child => [child.map shown]) slots children).head?.map (key ·.data) =
      (children.head?.map (·.data.id)).map name := by
  cases roots with
  | nil => rfl
  | fresh child _ => simp [weave, labelled]
  | kept first _ => simp [weave, first]

theorem play_additions (labelled : ∀ node, key (shown node) = name node.id) {parent : NodeId}
    {data : α} (root : key data = name parent) {kept : Tree Node → Tree Node → Tree α}
    {slots : List (Option (Tree Node))} {children : List (Tree Node)}
    (roots : Beside (fun before child => key (kept before child).data = name child.data.id) slots
      children)
    {stay : List (Option Nat)} (agree : slots.map Option.isSome = stay.map Option.isSome)
    (done : List (Tree α)) (distinct : ((Tree.node data (done ++
      weave kept (fun child => [child.map shown]) slots children)).keys key).Nodup) :
    (Tree.node data (done ++ weave kept (fun _ => []) slots children)).play key
        ((additions parent children stay).flatMap (editsOf name shown content)) =
      some (.node data (done ++ weave kept (fun child => [child.map shown]) slots children)) := by
  induction roots generalizing stay done with
  | nil => cases stay <;> rfl
  | @kept slots children before child _ _ induction =>
      cases stay with
      | nil => contradiction
      | cons position stay =>
          obtain ⟨here, rest⟩ := List.cons.inj agree
          obtain ⟨index, rfl⟩ := Option.isSome_iff_exists.mp here.symm
          have step := induction rest (done ++ [kept before child])
            (by simpa [weave] using distinct)
          simpa [weave, additions] using step
  | @fresh slots children child roots induction =>
      cases stay with
      | nil => contradiction
      | cons position stay =>
          obtain ⟨here, rest⟩ := List.cons.inj agree
          obtain rfl := Option.not_isSome_iff_eq_none.mp (Bool.not_eq_true _ ▸ here.symm)
          have regrouped := (Tree.keys_node_child key data done (weave kept
            (fun child => [child.map shown]) slots children) (child.map shown)).nodup_iff.mp
            distinct
          rw [Tree.siblingKeys_eq] at regrouped
          have others := (List.nodup_append.mp regrouped).2.1
          have next := head_weave labelled roots
          have passed : ∀ sibling ∈ done,
              some (key sibling.data) ≠ (children.head?.map (·.data.id)).map name := by
            intro sibling inside found
            rw [← next] at found
            obtain ⟨other, front, same⟩ := Option.map_eq_some_iff.mp found.symm
            exact Tree.siblings_apart others inside (List.mem_of_head? front) same.symm
          have inserted : (Tree.node data (done ++ weave kept (fun child => [child.map shown])
              slots children)).edit key (.add (name parent)
                ((children.head?.map (·.data.id)).map name) (child.map shown)) =
              some (.node data (done ++ child.map shown :: weave kept
                (fun child => [child.map shown]) slots children)) := by
            rw [Tree.edit, if_pos regrouped, Tree.changeAt_root root,
              Tree.insertChild_split passed next]
          -- The later siblings come first, so that the next one is there to stand before.
          rw [additions, List.flatMap_append, Tree.play_append]
          simp only [weave, List.nil_append, List.singleton_append]
          rw [induction rest done others]
          simp [editsOf, Tree.play, inserted, -Option.map_map]

theorem passage_adds (labelled : ∀ node, key (shown node) = name node.id)
    {previous current : Tree Node} (same : previous.data.id = current.data.id)
    (played : (blend (fun _ => []) (fun old _ => shown old) previous current).play key
      ((changesAt previous current).adds.flatMap (editsOf name shown content)) =
        some (blend (fun child => [child.map shown]) (fun old _ => shown old) previous current)) :
    Passage key ((changesAt previous current).adds.flatMap (editsOf name shown content))
      (current.map shown) (blend (fun _ => []) (fun old _ => shown old) previous current)
      (blend (fun child => [child.map shown]) (fun old _ => shown old) previous current) := by
  have picked : ∀ old new : Node, old.id = new.id → key (shown old) = name new.id :=
    fun old new equal => (labelled old).trans (congrArg name equal)
  have nothing : ∀ child : Tree Node,
      (([] : List (Tree α)).flatMap (keys key)).Sublist ((child.map shown).keys key) :=
    fun child => List.nil_sublist _
  refine ⟨?_, keys_blend_sublist labelled picked nothing same,
    keys_blend_whole_sublist labelled picked same, played⟩
  intro edit member label named
  obtain ⟨record, here, made⟩ := List.mem_flatMap.mp member
  obtain ⟨parent, next, subtree, rfl, known, below, member, brought⟩ := mem_adds here
  rw [List.mem_singleton.mp made, Edit.names, keys_map shown labelled] at named
  rw [keys_map shown labelled]
  rcases List.mem_cons.mp named with rfl | inside
  · exact List.mem_map_of_mem known
  · exact ((ids_inside (.of_child member brought)).map name).subset inside

theorem play_adds (labelled : ∀ node, key (shown node) = name node.id)
    (injective : Function.Injective name) {previous current : Tree Node}
    (same : previous.data.id = current.data.id) (distinct : (ids current).Nodup) :
    (blend (fun _ => []) (fun old _ => shown old) previous current).play key
        ((changesAt previous current).adds.flatMap (editsOf name shown content)) =
      some (blend (fun child => [child.map shown]) (fun old _ => shown old) previous current) := by
  have picked : ∀ old new : Node, old.id = new.id → key (shown old) = name new.id :=
    fun old new equal => (labelled old).trans (congrArg name equal)
  induction current using Tree.children_induction generalizing previous with
  | step now children induction =>
      have matched := slots_matched previous.children children
      have root := picked _ _ same
      have outlined := outline_distinct labelled injective distinct root
      have roots : Beside (fun before child =>
          key (blend (fun _ => []) (fun old _ => shown old) before child).data =
            name child.data.id) (slots previous.children children) children := by
        apply matched.imp
        intro before child pair
        obtain ⟨new, offspring⟩ := child
        exact picked _ _ pair.same
      have passages : Beside (fun before child =>
          Passage key ((changesAt before child).adds.flatMap (editsOf name shown content))
            (child.map shown) (blend (fun _ => []) (fun old _ => shown old) before child)
            (blend (fun child => [child.map shown]) (fun old _ => shown old) before child))
          (slots previous.children children) children := by
        apply matched.imp
        intro before child pair
        apply passage_adds content labelled pair.same
        exact induction child pair.present pair.same ((ids_child pair.present).nodup distinct)
      have grown : ((Tree.node (shown previous.data) (weave
          (blend (fun _ => []) (fun old _ => shown old)) (fun child => [child.map shown])
          (slots previous.children children) children)).keys key).Nodup := by
        have starts := passages.imp fun _ _ passage => passage.starts
        have inside := keys_weave_inside starts fun child => by rw [List.flatMap_singleton]
        rw [Tree.keys_node] at outlined ⊢
        exact (inside.cons_cons _).nodup outlined
      have own := play_additions content labelled root roots (stays_iff _ _) [] grown
      rw [← weave_current matched.length_eq] at outlined
      have all := play_weave additive_adds (editsOf name shown content) passages outlined
      rw [changesAt, additive_adds.append, additive_adds.append,
        (faceChanges_moves_nothing _ now).2, List.nil_append, List.flatMap_append, Tree.play_append,
        blend_node, blend_node]
      exact (congrArg (Option.bind · _) own).trans all

theorem play_revisions {part : Changes → List Record} (revising : Revising part)
    (labelled : ∀ node, key (shown node) = name node.id) (injective : Function.Injective name)
    (edits : Record → List (Edit κ α)) {first last : Node → Node → α}
    (firstKey : ∀ old new : Node, old.id = new.id → key (first old new) = name new.id)
    (lastKey : ∀ old new : Node, old.id = new.id → key (last old new) = name new.id)
    {previous current : Tree Node} (same : previous.data.id = current.data.id)
    (shape : previous.data.kind.sameShape current.data.kind) (distinct : (ids current).Nodup)
    (named : ∀ old new, ∀ record ∈ part (faceChanges old new), ∀ edit ∈ edits record,
      edit.names key = [name new.id])
    (step : ∀ old ∈ previous.preorder, ∀ new ∈ current.preorder, old.id = new.id →
      old.kind.sameShape new.kind → ∀ children : List (Tree α),
      (Tree.node (first old new) children).play key ((part (faceChanges old new)).flatMap edits) =
        some (.node (last old new) children)) :
    (blend (fun child => [child.map shown]) first previous current).play key
        ((part (changesAt previous current)).flatMap edits) =
      some (blend (fun child => [child.map shown]) last previous current) := by
  induction current using Tree.children_induction generalizing previous with
  | step now children induction =>
      obtain ⟨before, formers⟩ := previous
      have matched := slots_matched formers children
      have own := step before (Tree.data_mem_preorder _) now (Tree.data_mem_preorder _) same shape
        (weave (blend (fun child => [child.map shown]) first) (fun child => [child.map shown])
          (slots formers children) children)
      have passages : Beside (fun before child =>
          Passage key ((part (changesAt before child)).flatMap edits) (child.map shown)
            (blend (fun child => [child.map shown]) first before child)
            (blend (fun child => [child.map shown]) last before child))
          (slots formers children) children := by
        apply matched.imp
        intro former child pair
        have inside := fun old oldInside new newInside =>
          step old (Tree.mem_preorder_of_child pair.former oldInside) new
            (Tree.mem_preorder_of_child pair.present newInside)
        have played := induction child pair.present pair.same pair.shape
          ((ids_child pair.present).nodup distinct) inside
        refine ⟨?_, keys_blend_whole_sublist labelled firstKey pair.same,
          keys_blend_whole_sublist labelled lastKey pair.same, played⟩
        intro edit member label labels
        obtain ⟨record, here, made⟩ := List.mem_flatMap.mp member
        obtain ⟨old, -, new, newInside, -, -, face⟩ :=
          mem_revisions revising pair.same pair.shape here
        rw [named old new record face edit made, List.mem_singleton] at labels
        rw [labels, keys_map shown labelled]
        exact List.mem_map_of_mem (List.mem_map_of_mem newInside)
      have outlined := outline_distinct labelled injective distinct (lastKey before now same)
      rw [← weave_current matched.length_eq] at outlined
      have all := play_weave revising.toAdditive edits passages outlined
      rw [changesAt, revising.append, revising.append, revising.still, List.append_nil,
        List.flatMap_append, Tree.play_append, blend_node, blend_node]
      exact (congrArg (Option.bind · _) own).trans all

omit [DecidableEq κ] in
theorem blend_current (previous current : Tree Node) :
    blend (fun child => [child.map shown]) (fun _ new => shown new) previous current =
      current.map shown := by
  induction current using Tree.children_induction generalizing previous with
  | step now children induction =>
      have matched := slots_matched previous.children children
      have below : Beside (fun before child =>
          blend (fun child => [child.map shown]) (fun _ new => shown new) before child =
            child.map shown) (slots previous.children children) children := by
        apply matched.imp
        intro before child pair
        exact induction child pair.present before
      rw [blend_node, Tree.map_node, weave_congr below, weave_current matched.length_eq]

/-- The edits that the changes stand for lead from the previous document to the current one. -/
theorem play_changes (labelled : ∀ node, key (shown node) = name node.id)
    (injective : Function.Injective name) {previous current : Tree Node} {records : List Record}
    (compared : changes previous current = .ok records) (previousDistinct : (ids previous).Nodup)
    (currentDistinct : (ids current).Nodup)
    (named : ∀ record, ∀ edit ∈ content record, edit.names key = [name record.target])
    (revised : ∀ old ∈ previous.preorder, ∀ new ∈ current.preorder, old.id = new.id →
      old.kind.sameShape new.kind → ∀ children : List (Tree α),
      (Tree.node (shown old) children).play key (((faceChanges old new).texts ++
        (faceChanges old new).attributes).flatMap (editsOf name shown content)) =
          some (.node (shown new) children)) :
    (previous.map shown).play key (records.flatMap (editsOf name shown content)) =
      some (current.map shown) := by
  obtain ⟨same, shape, listed⟩ := changes_ok compared
  have atTarget : ∀ old new, ∀ record, record ∈ (faceChanges old new).texts ∨
      record ∈ (faceChanges old new).attributes → ∀ edit ∈ editsOf name shown content record,
      edit.names key = [name new.id] := by
    intro old new record member edit made
    rcases mem_faceChanges member with ⟨text, masked, rfl⟩ | ⟨masked, attributes, style, rfl⟩
    · exact named _ edit made
    · exact named _ edit made
  -- Between the texts and the attributes a node is new when its text was.
  let middle (old new : Node) : α :=
    if (faceChanges old new).texts.isEmpty then shown old else shown new
  have middleKey : ∀ old new : Node, old.id = new.id → key (middle old new) = name new.id := by
    intro old new equal
    dsimp only [middle]
    split
    · rw [labelled, equal]
    · rw [labelled]
  have oldKey : ∀ old new : Node, old.id = new.id → key (shown old) = name new.id := by
    intro old new equal
    rw [labelled, equal]
  have removed := play_removes content labelled injective same previousDistinct
  have added := play_adds content labelled injective same currentDistinct
  have texts := play_revisions revising_texts labelled injective (editsOf name shown content)
    oldKey middleKey same shape currentDistinct
    (fun old new record member => atTarget old new record (.inl member)) (by
      intro old oldInside new newInside equal alike children
      have whole := revised old oldInside new newInside equal alike children
      rcases faceChanges_one_sort old new with none | none
      · simp [middle, none, Tree.play]
      · rw [none, List.append_nil] at whole
        by_cases still : (faceChanges old new).texts = []
        · simp [middle, still, Tree.play]
        · rw [whole]
          simp [middle, still])
  have attributes := play_revisions revising_attributes labelled injective
    (editsOf name shown content) middleKey (fun _ new _ => labelled new) same shape currentDistinct
    (fun old new record member => atTarget old new record (.inr member)) (by
      intro old oldInside new newInside equal alike children
      have whole := revised old oldInside new newInside equal alike children
      by_cases still : (faceChanges old new).texts = []
      · rw [still, List.nil_append] at whole
        simp only [middle, still, List.isEmpty_nil, if_true]
        exact whole
      · have none := (faceChanges_one_sort old new).resolve_left still
        simp [middle, still, none, Tree.play])
  rw [← listed, Changes.records, List.flatMap_append, List.flatMap_append, List.flatMap_append,
    Tree.play_append, Tree.play_append, Tree.play_append, removed, Option.bind_some, added,
    Option.bind_some, texts, Option.bind_some, attributes, blend_current]

end Play

end SessionReplay.Document
