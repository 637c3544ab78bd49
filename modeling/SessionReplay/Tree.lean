/-!
Ordered trees with any number of children. The nodes of a tree come in document order: a node
before its descendants, and one child's subtree before the next child. The main statement is that
the walk with a stack of pending subtrees visits the nodes in that order.
-/

namespace SessionReplay

inductive Tree (α : Type u) where
  | node (data : α) (children : List (Tree α))
deriving Repr

namespace Tree

variable {α : Type u} {β : Type v} {σ : Type w}

def data : Tree α → α
  | node data _ => data

def children : Tree α → List (Tree α)
  | node _ children => children

instance [Inhabited α] : Inhabited (Tree α) := ⟨node default []⟩

mutual

def size : Tree α → Nat
  | node _ children => 1 + sizeAll children

def sizeAll : List (Tree α) → Nat
  | [] => 0
  | tree :: trees => size tree + sizeAll trees

end

mutual

/-- The nodes in document order. -/
def preorder : Tree α → List α
  | node data children => data :: preorderAll children

def preorderAll : List (Tree α) → List α
  | [] => []
  | tree :: trees => preorder tree ++ preorderAll trees

end

mutual

/-- Equality of trees up to a test on their nodes. -/
def agree (same : α → α → Bool) : Tree α → Tree α → Bool
  | node data children, node data' children' =>
      same data data' && agreeAll same children children'

def agreeAll (same : α → α → Bool) : List (Tree α) → List (Tree α) → Bool
  | [], [] => true
  | tree :: trees, tree' :: trees' => agree same tree tree' && agreeAll same trees trees'
  | _, _ => false

end

instance [BEq α] : BEq (Tree α) := ⟨agree (· == ·)⟩

mutual

/-- Replaces every node, in document order, by a step that carries a state along. -/
def mapAccum (step : α → σ → β × σ) : Tree α → σ → Tree β × σ
  | node data children, state =>
      let (data, state) := step data state
      let (children, state) := mapAccumAll step children state
      (node data children, state)

def mapAccumAll (step : α → σ → β × σ) : List (Tree α) → σ → List (Tree β) × σ
  | [], state => ([], state)
  | tree :: trees, state =>
      let (tree, state) := mapAccum step tree state
      let (trees, state) := mapAccumAll step trees state
      (tree :: trees, state)

end

theorem size_pos (tree : Tree α) : 0 < tree.size := by
  cases tree
  simp only [size]
  omega

theorem sizeAll_append (first second : List (Tree α)) :
    sizeAll (first ++ second) = sizeAll first + sizeAll second := by
  induction first with
  | nil => simp [sizeAll]
  | cons tree trees induction => simp only [List.cons_append, sizeAll, induction]; omega

theorem preorderAll_append (first second : List (Tree α)) :
    preorderAll (first ++ second) = preorderAll first ++ preorderAll second := by
  induction first with
  | nil => simp [preorderAll]
  | cons tree trees induction => simp [preorderAll, induction]

/-- Visits the first pending subtree's node and puts its children in front of the others. -/
def walk : (pending : List (Tree α)) → List (Tree α)
  | [] => []
  | node data children :: others => node data children :: walk (children ++ others)
termination_by pending => sizeAll pending
decreasing_by
  simp only [sizeAll, size, sizeAll_append]
  omega

/-- The tree itself and every subtree below it, in document order. -/
def descendants (tree : Tree α) : List (Tree α) := walk [tree]

theorem map_data_walk (pending : List (Tree α)) : (walk pending).map data = preorderAll pending := by
  fun_induction walk pending with
  | case1 => rfl
  | case2 label below others induction =>
      simp [induction, preorderAll, preorder, preorderAll_append, data]

theorem map_data_descendants (tree : Tree α) : tree.descendants.map data = tree.preorder := by
  simp [descendants, map_data_walk, preorderAll]

/-- The first subtree in document order whose node passes the test. -/
def find? (test : α → Bool) (tree : Tree α) : Option (Tree α) :=
  tree.descendants.find? fun below => test below.data

end Tree

end SessionReplay
