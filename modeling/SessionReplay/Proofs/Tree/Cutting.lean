import SessionReplay.Proofs.Tree.Shape

/-!
Trees cut off below a level, and trees with some nodes taken out from between the others.
-/

namespace SessionReplay.Tree

variable {α : Type u} {β : Type v}

/-- The tree down to a level. A node on the last level comes with the children cut off below it. -/
def cut : (levels : Nat) → Tree α → Tree (α × Option (List (Tree α)))
  | 0, node data children => node (data, some children) []
  | levels + 1, node data children => node (data, none) (children.map (cut levels))

theorem preorder_cut_sublist (levels : Nat) (tree : Tree α) :
    ((tree.cut levels).preorder.map Prod.fst).Sublist tree.preorder := by
  induction levels generalizing tree with
  | zero =>
      obtain ⟨data, children⟩ := tree
      rw [cut, preorder_node, preorder_node]
      exact (List.nil_sublist _).cons_cons data
  | succ levels induction =>
      obtain ⟨data, children⟩ := tree
      rw [cut, preorder_node, preorder_node, List.map_cons, List.flatMap_map, List.map_flatMap]
      apply List.Sublist.cons_cons
      induction children with
      | nil => exact List.Sublist.refl _
      | cons child children below => exact (induction child).append below

theorem size_cut_le (levels : Nat) (tree : Tree α) : (tree.cut levels).size ≤ tree.size := by
  have fewer := (preorder_cut_sublist levels tree).length_le
  rw [List.length_map, length_preorder, length_preorder] at fewer
  exact fewer

theorem Matches.size {related : α → β → Prop} {tree : Tree α} {other : Tree β}
    (alike : Matches related tree other) : tree.size = other.size := by
  have all : ∀ (children : List (Tree α)) (others : List (Tree β)),
      (∀ child ∈ children, ∀ other, Matches related child other → child.size = other.size) →
      List.Forall₂ (Matches related) children others → sizeAll children = sizeAll others := by
    intro children others same below
    induction below with
    | nil => rfl
    | cons first _ induction =>
        rw [List.forall_mem_cons] at same
        rw [sizeAll, sizeAll, same.1 _ first, induction same.2]
  induction tree using children_induction generalizing other with
  | step data children induction =>
      cases alike with
      | node here below =>
          rw [Tree.size, Tree.size, all _ _ (fun child member _ => induction child member) below]

mutual

/-- The tree with some nodes taken out. What is below such a node stands in its place. -/
def splice (out : α → Bool) : Tree α → List (Tree α)
  | node data children =>
      if out data then spliceAll out children else [node data (spliceAll out children)]

def spliceAll (out : α → Bool) : List (Tree α) → List (Tree α)
  | [] => []
  | tree :: trees => splice out tree ++ spliceAll out trees

end

theorem spliceAll_eq_flatMap (out : α → Bool) (trees : List (Tree α)) :
    spliceAll out trees = trees.flatMap (splice out) := by
  induction trees with
  | nil => rfl
  | cons tree trees induction => rw [spliceAll, induction, List.flatMap_cons]

section Splicing

variable {out : α → Bool}

theorem splice_kept {data : α} (kept : out data = false) (children : List (Tree α)) :
    (node data children).splice out = [node data (children.flatMap (splice out))] := by
  rw [splice, spliceAll_eq_flatMap, kept, if_neg Bool.false_ne_true]

theorem splice_eq_self {tree : Tree α} (none : ∀ item ∈ tree.preorder, out item = false) :
    tree.splice out = [tree] := by
  induction tree using children_induction with
  | step data children induction =>
      have below : children.flatMap (splice out) = children := by
        calc children.flatMap (splice out) = children.flatMap fun child => [child] :=
              List.flatMap_congr fun child member => induction child member fun item inside =>
                none item (mem_preorder_of_child member inside)
          _ = children := List.flatMap_singleton' children
      rw [splice_kept (none data (data_mem_preorder _)), below]

/-- The nodes that are not taken out stay in document order. -/
theorem preorder_splice (tree : Tree α) :
    (tree.splice out).flatMap preorder = tree.preorder.filter (!out ·) := by
  induction tree using children_induction with
  | step data children induction =>
      have below : (children.flatMap (splice out)).flatMap preorder =
          (children.flatMap preorder).filter (!out ·) := by
        rw [List.flatMap_assoc, List.filter_flatMap]
        exact List.flatMap_congr induction
      rw [splice, spliceAll_eq_flatMap, preorder_node, List.filter_cons, ← below]
      cases out data with
      | true => rfl
      | false => simp [preorder_node]

end Splicing

end SessionReplay.Tree
