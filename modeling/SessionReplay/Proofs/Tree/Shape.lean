import Mathlib.Data.List.Basic
import Mathlib.Data.List.Forall2
import SessionReplay.Tree

/-!
The shape of a tree: its height, its image under a map of the nodes, and the ways from the root
down to its nodes. A pass that carries a state along keeps the shape. Trees of one shape match when
their nodes do, place by place.
-/

namespace SessionReplay.Tree

variable {α : Type u} {β : Type v} {γ : Type w} {σ : Type x}

/-- What holds of a tree whenever it holds of all its children holds of every tree. -/
theorem children_induction {motive : Tree α → Prop}
    (step : ∀ data children, (∀ child ∈ children, motive child) → motive (node data children)) :
    ∀ tree, motive tree
  | node data children => step data children fun child _ => children_induction step child

theorem preorderAll_eq_flatMap (trees : List (Tree α)) :
    preorderAll trees = trees.flatMap preorder := by
  induction trees with
  | nil => rfl
  | cons tree trees induction => simp [preorderAll, induction]

theorem preorder_node (data : α) (children : List (Tree α)) :
    (node data children).preorder = data :: children.flatMap preorder := by
  rw [preorder, preorderAll_eq_flatMap]

theorem data_mem_preorder (tree : Tree α) : tree.data ∈ tree.preorder := by
  cases tree
  simp [preorder, data]

theorem mem_preorder_of_child {data item : α} {children : List (Tree α)} {child : Tree α}
    (member : child ∈ children) (inside : item ∈ child.preorder) :
    item ∈ (node data children).preorder := by
  rw [preorder_node]
  exact List.mem_cons_of_mem _ (List.mem_flatMap.mpr ⟨child, member, inside⟩)

/-- A tree is part of another. -/
inductive Inside : Tree α → Tree α → Prop
  | itself (tree : Tree α) : Inside tree tree
  | inner {part child : Tree α} {data : α} {children : List (Tree α)} (member : child ∈ children)
      (inside : Inside part child) : Inside part (node data children)

theorem Inside.of_child {part child tree : Tree α} (member : child ∈ tree.children)
    (inside : Inside part child) : Inside part tree := by
  cases tree
  exact .inner member inside

theorem Inside.trans {part whole tree : Tree α} (inner : Inside part whole)
    (outer : Inside whole tree) : Inside part tree := by
  induction outer with
  | itself => exact inner
  | inner member _ below => exact .inner member below

theorem inside_iff {part tree : Tree α} :
    Inside part tree ↔ part = tree ∨ ∃ above, Inside above tree ∧ part ∈ above.children := by
  constructor
  · intro inside
    induction inside with
    | itself => exact .inl rfl
    | @inner child data children member inside below =>
        right
        rcases below with rfl | ⟨above, within, listed⟩
        · exact ⟨.node data children, .itself _, member⟩
        · exact ⟨above, .inner member within, listed⟩
  · rintro (rfl | ⟨above, inside, listed⟩)
    · exact .itself part
    · exact (Inside.of_child listed (.itself part)).trans inside

theorem inside_of_mem {item : α} {tree : Tree α} (member : item ∈ tree.preorder) :
    ∃ part, Inside part tree ∧ part.data = item := by
  induction tree using children_induction with
  | step data children induction =>
      rw [preorder_node, List.mem_cons, List.mem_flatMap] at member
      rcases member with rfl | ⟨child, here, below⟩
      · exact ⟨_, .itself _, rfl⟩
      · obtain ⟨part, inside, same⟩ := induction child here below
        exact ⟨part, .inner here inside, same⟩

theorem find?_eq_none_iff {test : α → Bool} {tree : Tree α} :
    tree.find? test = none ↔ ∀ item ∈ tree.preorder, test item = false := by
  simp only [find?, List.find?_eq_none, ← map_data_descendants, List.forall_mem_map,
    Bool.not_eq_true]

theorem Inside.preorder_sublist {part tree : Tree α} (inside : Inside part tree) :
    part.preorder.Sublist tree.preorder := by
  induction inside with
  | itself => exact List.Sublist.refl _
  | inner member _ induction =>
      rw [preorder_node, List.flatMap_def]
      exact (induction.trans (List.sublist_flatten_of_mem (List.mem_map_of_mem member))).cons _

theorem Inside.data_mem {part tree : Tree α} (inside : Inside part tree) :
    part.data ∈ tree.preorder :=
  inside.preorder_sublist.subset (data_mem_preorder part)

mutual

/-- The tree with every node replaced by its image. -/
def map (f : α → β) : Tree α → Tree β
  | node data children => node (f data) (mapAll f children)

def mapAll (f : α → β) : List (Tree α) → List (Tree β)
  | [] => []
  | tree :: trees => map f tree :: mapAll f trees

end

theorem mapAll_eq_map (f : α → β) (trees : List (Tree α)) : mapAll f trees = trees.map (map f) := by
  induction trees with
  | nil => rfl
  | cons tree trees induction => simp [mapAll, induction]

@[simp]
theorem map_node (f : α → β) (data : α) (children : List (Tree α)) :
    (node data children).map f = node (f data) (children.map (map f)) := by
  rw [map, mapAll_eq_map]

@[simp]
theorem data_map (f : α → β) (tree : Tree α) : (tree.map f).data = f tree.data := by
  cases tree
  simp [data]

@[simp]
theorem children_map (f : α → β) (tree : Tree α) :
    (tree.map f).children = tree.children.map (map f) := by
  cases tree
  simp [children]

theorem preorder_map (f : α → β) (tree : Tree α) : (tree.map f).preorder = tree.preorder.map f := by
  induction tree using children_induction with
  | step data children induction =>
      simp only [map_node, preorder_node, List.flatMap_map, List.map_cons, List.map_flatMap]
      exact congrArg _ (List.flatMap_congr induction)

theorem length_preorder (tree : Tree α) : tree.preorder.length = tree.size := by
  have all : ∀ children : List (Tree α),
      (∀ child ∈ children, child.preorder.length = child.size) →
      (preorderAll children).length = sizeAll children := by
    intro children same
    induction children with
    | nil => rfl
    | cons child children induction =>
        obtain ⟨first, others⟩ := List.forall_mem_cons.mp same
        rw [preorderAll, sizeAll, List.length_append, first, induction others]
  induction tree using children_induction with
  | step data children induction =>
      rw [preorder, size, List.length_cons, all children induction, Nat.add_comm]

theorem map_map (f : α → β) (g : β → γ) (tree : Tree α) :
    (tree.map f).map g = tree.map fun item => g (f item) := by
  induction tree using children_induction with
  | step data children induction =>
      simp only [map_node, List.map_map, node.injEq, true_and]
      exact List.map_congr_left induction

theorem map_id (tree : Tree α) : (tree.map fun item => item) = tree := by
  induction tree using children_induction with
  | step data children induction =>
      rw [map_node, List.map_congr_left induction, List.map_id']

theorem map_congr {f g : α → β} {tree : Tree α} (same : ∀ item ∈ tree.preorder, f item = g item) :
    tree.map f = tree.map g := by
  induction tree using children_induction with
  | step data children induction =>
      simp only [map_node, node.injEq]
      constructor
      · exact same data (data_mem_preorder _)
      · apply List.map_congr_left
        intro child member
        apply induction child member
        intro item inside
        exact same item (mem_preorder_of_child member inside)

theorem inside_map {f : α → β} {part : Tree β} {tree : Tree α} :
    Inside part (tree.map f) ↔ ∃ former, Inside former tree ∧ part = former.map f := by
  constructor
  · intro inside
    induction tree using children_induction with
    | step data children induction =>
        rw [map_node] at inside
        cases inside with
        | itself => exact ⟨.node data children, .itself _, by rw [map_node]⟩
        | inner member below =>
            obtain ⟨child, listed, rfl⟩ := List.mem_map.mp member
            obtain ⟨former, within, same⟩ := induction child listed below
            exact ⟨former, .inner listed within, same⟩
  · rintro ⟨former, inside, rfl⟩
    induction inside with
    | itself => exact .itself _
    | inner member _ below =>
        rw [map_node]
        exact .inner (List.mem_map_of_mem member) below

/-- Trees of one shape, with a relation between their nodes at each place. -/
inductive Matches (related : α → β → Prop) : Tree α → Tree β → Prop
  | node {data : α} {other : β} {children : List (Tree α)} {others : List (Tree β)}
      (here : related data other) (below : List.Forall₂ (Matches related) children others) :
      Matches related (node data children) (node other others)

theorem Matches.data {related : α → β → Prop} {tree : Tree α} {other : Tree β}
    (alike : Matches related tree other) : related tree.data other.data := by
  cases alike with
  | node here below => exact here

theorem matches_map {related : β → α → Prop} {f : α → β} (same : ∀ item, related (f item) item)
    (tree : Tree α) : Matches related (tree.map f) tree := by
  induction tree using children_induction with
  | step data children induction =>
      rw [map_node]
      apply Matches.node (same data)
      rw [List.forall₂_map_left_iff, List.forall₂_same]
      exact induction

/-- What is the same for matching children is the same for the lists of them. -/
theorem map_of_forall₂ {δ : Type x} {f : α → δ} {g : β → δ} {related : α → β → Prop}
    {items : List α} {others : List β} (alike : List.Forall₂ related items others)
    (same : ∀ item ∈ items, ∀ other, related item other → f item = g other) :
    items.map f = others.map g := by
  induction alike with
  | nil => rfl
  | cons first _ induction =>
      rw [List.forall_mem_cons] at same
      rw [List.map_cons, List.map_cons, same.1 _ first, induction same.2]

mutual

/-- The number of levels below the root. -/
def height : Tree α → Nat
  | node _ children => heightAll children

def heightAll : List (Tree α) → Nat
  | [] => 0
  | tree :: trees => max (height tree + 1) (heightAll trees)

end

theorem heightAll_le_iff {trees : List (Tree α)} {levels : Nat} :
    heightAll trees ≤ levels ↔ ∀ tree ∈ trees, tree.height < levels := by
  induction trees with
  | nil => simp [heightAll]
  | cons tree trees induction =>
      simp only [heightAll, List.forall_mem_cons, ← induction]
      omega

theorem height_le_iff {data : α} {children : List (Tree α)} {levels : Nat} :
    (node data children).height ≤ levels ↔ ∀ child ∈ children, child.height < levels := by
  rw [height, heightAll_le_iff]

theorem height_child {data : α} {children : List (Tree α)} {child : Tree α}
    (member : child ∈ children) : child.height < (node data children).height :=
  height_le_iff.mp (Nat.le_refl _) child member

theorem Inside.height_le {part tree : Tree α} (inside : Inside part tree) :
    part.height ≤ tree.height := by
  induction inside with
  | itself => exact Nat.le_refl _
  | inner member _ induction =>
      exact Nat.le_of_lt (Nat.lt_of_le_of_lt induction (height_child member))

theorem height_map (f : α → β) (tree : Tree α) : (tree.map f).height = tree.height := by
  have bounds : ∀ levels, (tree.map f).height ≤ levels ↔ tree.height ≤ levels := by
    induction tree using children_induction with
    | step data children induction =>
        intro levels
        rw [map_node, height_le_iff, height_le_iff, List.forall_mem_map]
        have below : ∀ child ∈ children, (child.map f).height = child.height := fun child member =>
          Nat.le_antisymm ((induction child member _).mpr (Nat.le_refl _))
            ((induction child member _).mp (Nat.le_refl _))
        exact forall₂_congr fun child member => by rw [below child member]
  exact Nat.le_antisymm ((bounds _).mpr (Nat.le_refl _)) ((bounds _).mp (Nat.le_refl _))

mutual

/-- The ways from the root down to the nodes, in document order. Each starts with the root and
ends with the node it leads to. -/
def branches : Tree α → List (List α)
  | node data children => [data] :: (branchesAll children).map (data :: ·)

def branchesAll : List (Tree α) → List (List α)
  | [] => []
  | tree :: trees => branches tree ++ branchesAll trees

end

theorem branchesAll_eq_flatMap (trees : List (Tree α)) :
    branchesAll trees = trees.flatMap branches := by
  induction trees with
  | nil => rfl
  | cons tree trees induction => simp [branchesAll, induction]

theorem mem_branches_node {data : α} {children : List (Tree α)} {branch : List α} :
    branch ∈ (node data children).branches ↔
      branch = [data] ∨ ∃ child ∈ children, ∃ below ∈ child.branches, branch = data :: below := by
  simp only [branches, branchesAll_eq_flatMap, List.mem_cons, List.mem_map, List.mem_flatMap]
  constructor
  · rintro (rfl | ⟨below, ⟨child, member, inside⟩, rfl⟩)
    · exact .inl rfl
    · exact .inr ⟨child, member, below, inside, rfl⟩
  · rintro (rfl | ⟨child, member, below, inside, rfl⟩)
    · exact .inl rfl
    · exact .inr ⟨below, ⟨child, member, inside⟩, rfl⟩

theorem branches_map (f : α → β) (tree : Tree α) :
    (tree.map f).branches = tree.branches.map (List.map f) := by
  induction tree using children_induction with
  | step data children induction =>
      simp only [map_node, branches, branchesAll_eq_flatMap, List.flatMap_map, List.map_cons,
        List.map_nil, List.map_map, List.map_flatMap, List.cons.injEq, true_and]
      apply List.flatMap_congr
      intro child member
      rw [induction child member]
      simp [Function.comp_def]

mutual

theorem mapAccum_map (step : α → σ → β × σ) (f : β → γ) : (tree : Tree α) → (state : σ) →
    tree.mapAccum (fun item state => (f (step item state).1, (step item state).2)) state =
      ((tree.mapAccum step state).1.map f, (tree.mapAccum step state).2)
  | node data children, state => by
      simp only [mapAccum, mapAccumAll_map step f children, map]

theorem mapAccumAll_map (step : α → σ → β × σ) (f : β → γ) : (trees : List (Tree α)) → (state : σ) →
    mapAccumAll (fun item state => (f (step item state).1, (step item state).2)) trees state =
      (mapAll f (mapAccumAll step trees state).1, (mapAccumAll step trees state).2)
  | [], state => rfl
  | tree :: trees, state => by
      simp only [mapAccumAll, mapAccum_map step f tree, mapAccumAll_map step f trees, mapAll]

end

mutual

/-- A pass that keeps each node within what it makes of it keeps the tree. -/
theorem map_mapAccum {step : α → σ → β × σ} {f : β → α}
    (keeps : ∀ item state, f (step item state).1 = item) : (tree : Tree α) → (state : σ) →
    (tree.mapAccum step state).1.map f = tree
  | node data children, state => by
      simp only [mapAccum, map, keeps, mapAll_mapAccumAll keeps children]

theorem mapAll_mapAccumAll {step : α → σ → β × σ} {f : β → α}
    (keeps : ∀ item state, f (step item state).1 = item) : (trees : List (Tree α)) → (state : σ) →
    mapAll f (mapAccumAll step trees state).1 = trees
  | [], state => rfl
  | tree :: trees, state => by
      simp only [mapAccumAll, mapAll, map_mapAccum keeps tree, mapAll_mapAccumAll keeps trees]

end

mutual

theorem map_then_mapAccum (f : γ → α) (step : α → σ → β × σ) : (tree : Tree γ) → (state : σ) →
    (tree.map f).mapAccum step state = tree.mapAccum (fun item => step (f item)) state
  | node data children, state => by
      simp only [map, mapAccum, mapAll_then_mapAccumAll f step children]

theorem mapAll_then_mapAccumAll (f : γ → α) (step : α → σ → β × σ) : (trees : List (Tree γ)) →
    (state : σ) → mapAccumAll step (mapAll f trees) state =
      mapAccumAll (fun item => step (f item)) trees state
  | [], state => rfl
  | tree :: trees, state => by
      simp only [mapAll, mapAccumAll, map_then_mapAccum f step tree,
        mapAll_then_mapAccumAll f step trees]

end

mutual

/-- What each step of a pass keeps, of its results so far and its state, the whole pass keeps. -/
theorem mapAccum_keeps {step : α → σ → β × σ} {kept : List β → σ → Prop}
    (keeps : ∀ item done state, kept done state →
      kept (done ++ [(step item state).1]) (step item state).2) : (tree : Tree α) →
    (done : List β) → (state : σ) → kept done state →
    kept (done ++ (tree.mapAccum step state).1.preorder) (tree.mapAccum step state).2
  | node data children, done, state, before => by
      have below := mapAccumAll_keeps keeps children _ _ (keeps data done state before)
      simp only [mapAccum, preorder]
      rw [List.append_assoc, List.singleton_append] at below
      exact below

theorem mapAccumAll_keeps {step : α → σ → β × σ} {kept : List β → σ → Prop}
    (keeps : ∀ item done state, kept done state →
      kept (done ++ [(step item state).1]) (step item state).2) : (trees : List (Tree α)) →
    (done : List β) → (state : σ) → kept done state →
    kept (done ++ preorderAll (mapAccumAll step trees state).1) (mapAccumAll step trees state).2
  | [], done, state, before => by
      simp only [mapAccumAll, preorderAll, List.append_nil]
      exact before
  | tree :: trees, done, state, before => by
      have rest := mapAccumAll_keeps keeps trees _ _ (mapAccum_keeps keeps tree done state before)
      simp only [mapAccumAll, preorderAll]
      rw [List.append_assoc] at rest
      exact rest

end

end SessionReplay.Tree
