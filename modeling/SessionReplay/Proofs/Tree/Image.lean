import SessionReplay.Proofs.Tree.Edit

/-!
Edits of a tree whose nodes are replaced by images with the same keys. What an edit makes of the
tree, its image makes of the image of the tree.
-/

namespace SessionReplay

/-- An edit and what it becomes when every node is replaced by its image. -/
inductive Edit.Image {κ : Type u} {α : Type v} {β : Type w} (f : α → β) :
    Edit κ α → Edit κ β → Prop
  | remove (parent target : κ) : Image f (.remove parent target) (.remove parent target)
  | add (parent : κ) (next : Option κ) (subtree : Tree α) :
      Image f (.add parent next subtree) (.add parent next (subtree.map f))
  | revise (target : κ) {change : α → Option α} {image : β → Option β}
      (same : ∀ item, image (f item) = (change item).map f) :
      Image f (.revise target change) (.revise target image)

namespace Tree

variable {κ : Type u} {α : Type v} {β : Type w} {key : α → κ} {other : β → κ} {f : α → β}

theorem keys_image (named : ∀ item, other (f item) = key item) (tree : Tree α) :
    (tree.map f).keys other = tree.keys key := by
  simp only [keys, preorder_map, List.map_map]
  exact List.map_congr_left fun item _ => named item

variable [DecidableEq κ]

mutual

theorem changeAt_image (named : ∀ item, other (f item) = key item) {target : κ}
    {change : α → List (Tree α) → Option (Tree α)} {image : β → List (Tree β) → Option (Tree β)}
    (same : ∀ data children,
      image (f data) (children.map (map f)) = (change data children).map (map f)) :
    (tree : Tree α) → (tree.map f).changeAt other target image =
      (tree.changeAt key target change).map (map f)
  | node data children => by
      rw [map_node, changeAt, changeAt, named]
      split
      case isTrue => exact same data children
      case isFalse =>
        rw [changeAtAll_image named same children]
        simp only [Option.map_map]
        congr 1
        funext trees
        simp

theorem changeAtAll_image (named : ∀ item, other (f item) = key item) {target : κ}
    {change : α → List (Tree α) → Option (Tree α)} {image : β → List (Tree β) → Option (Tree β)}
    (same : ∀ data children,
      image (f data) (children.map (map f)) = (change data children).map (map f)) :
    (trees : List (Tree α)) → changeAtAll other target image (trees.map (map f)) =
      (changeAtAll key target change trees).map (List.map (map f))
  | [] => rfl
  | tree :: trees => by
      simp only [List.map_cons, changeAtAll, changeAt_image named same tree,
        changeAtAll_image named same trees]
      cases tree.changeAt key target change <;> simp [Function.comp_def]

end

theorem removeChild_image (named : ∀ item, other (f item) = key item) (target : κ) (data : α)
    (children : List (Tree α)) : removeChild other target (f data) (children.map (map f)) =
      (removeChild key target data children).map (map f) := by
  have roots : (children.map (map f)).map (other ·.data) = children.map (key ·.data) := by
    simp [Function.comp_def, named]
  rw [removeChild, removeChild, roots]
  split
  case isTrue => simp [List.filter_map, Function.comp_def, named]
  case isFalse => rfl

theorem insertChild_image (named : ∀ item, other (f item) = key item) (next : Option κ)
    (subtree : Tree α) (data : α) (children : List (Tree α)) :
    insertChild other next (subtree.map f) (f data) (children.map (map f)) =
      (insertChild key next subtree data children).map (map f) := by
  simp only [insertChild, List.takeWhile_map, List.dropWhile_map, List.head?_map, Option.map_map,
    Function.comp_def, data_map, named]
  split
  case isTrue => simp
  case isFalse => rfl

theorem reviseData_image (named : ∀ item, other (f item) = key item) {change : α → Option α}
    {image : β → Option β} (same : ∀ item, image (f item) = (change item).map f) (data : α)
    (children : List (Tree α)) : reviseData other image (f data) (children.map (map f)) =
      (reviseData key change data children).map (map f) := by
  rw [reviseData, reviseData, same]
  cases change data with
  | none => rfl
  | some revised =>
      simp only [Option.map_some, Option.filter_some, named]
      split <;> simp

/-- Edits go through the images of the nodes as they go through the nodes. -/
theorem edit_image (named : ∀ item, other (f item) = key item) {change : Edit κ α}
    {image : Edit κ β} (becomes : change.Image f image) (tree : Tree α) :
    (tree.map f).edit other image = (tree.edit key change).map (map f) := by
  cases becomes with
  | remove parent target => exact changeAt_image named (removeChild_image named target) tree
  | add parent next subtree =>
      simp only [edit, keys_image named]
      split
      case isTrue => exact changeAt_image named (insertChild_image named next subtree) tree
      case isFalse => rfl
  | revise target same => exact changeAt_image named (reviseData_image named same) tree

end Tree

end SessionReplay
