import Mathlib.Data.List.Lex
import SessionReplay.Document.Node
import SessionReplay.Proofs.Tree.Shape

/-!
The traversal of a tree one subtree at a time. What is still to come lies on a stack, and each step
takes the top off and puts its children on, the last child first. The steps come to an end and
give the subtrees in document order: a subtree is known by the way down to it, and the ways rise in
the order of words. A node is found by its id at the first place where it stands.
-/

namespace SessionReplay.Tree

variable {α : Type u}

/-- The subtree on top of the stack, and the stack with its children in its place. -/
def next? (stack : Array (Tree α)) : Option (Tree α × Array (Tree α)) := do
  let tree ← stack.back?
  some (tree, stack.pop ++ tree.children.reverse)

/-- What the steps give until the stack is empty. Steps that never end give nothing. -/
inductive Yields : Array (Tree α) → List (Tree α) → Prop
  | done {stack : Array (Tree α)} (empty : next? stack = none) : Yields stack []
  | step {stack rest : Array (Tree α)} {tree : Tree α} {items : List (Tree α)}
      (next : next? stack = some (tree, rest)) (later : Yields rest items) :
      Yields stack (tree :: items)

/-- What a search finds that takes steps until a node passes the test or the stack is empty. -/
inductive Seeks (test : α → Bool) : Array (Tree α) → Option (Tree α) → Prop
  | nowhere {stack : Array (Tree α)} (empty : next? stack = none) : Seeks test stack none
  | here {stack rest : Array (Tree α)} {tree : Tree α} (next : next? stack = some (tree, rest))
      (passes : test tree.data = true) : Seeks test stack (some tree)
  | later {stack rest : Array (Tree α)} {tree : Tree α} {found : Option (Tree α)}
      (next : next? stack = some (tree, rest)) (fails : test tree.data = false)
      (search : Seeks test rest found) : Seeks test stack found

mutual

/-- The tree itself and all below it, a subtree before the subtrees in it. -/
def subtrees : Tree α → List (Tree α)
  | node data children => node data children :: subtreesAll children

def subtreesAll : List (Tree α) → List (Tree α)
  | [] => []
  | tree :: trees => subtrees tree ++ subtreesAll trees

end

/-- The subtree at the end of a way down, which says at each node which child comes next. -/
def subtree? (tree : Tree α) : (place : List Nat) → Option (Tree α)
  | [] => some tree
  | index :: place => tree.children[index]?.bind (subtree? · place)

mutual

/-- The ways down to the subtrees. -/
def places : Tree α → List (List Nat)
  | node _ children => [] :: placesFrom 0 children

/-- The ways down to the subtrees of siblings, of which `index` is the first. -/
def placesFrom (index : Nat) : List (Tree α) → List (List Nat)
  | [] => []
  | tree :: trees => (places tree).map (index :: ·) ++ placesFrom (index + 1) trees

end

/-- Each subtree once, by the ways down in the order of words: a subtree before those in it, and
all of one child before the next child. -/
structure DocumentOrder (tree : Tree α) (ways : List (List Nat)) (items : List (Tree α)) :
    Prop where
  rising : ways.Pairwise (· < ·)
  complete : ∀ place, place ∈ ways ↔ (tree.subtree? place).isSome
  there : ways.map tree.subtree? = items.map some

theorem next?_push (stack : Array (Tree α)) (tree : Tree α) :
    next? (stack.push tree) = some (tree, stack ++ tree.children.reverse) := by
  simp [next?]

/-- The stack from which a walk is made has the next subtree last. -/
theorem next?_pending (tree : Tree α) (others : List (Tree α)) :
    next? (tree :: others).reverse.toArray =
      some (tree, (tree.children ++ others).reverse.toArray) := by
  have top : (tree :: others).reverse.toArray = others.reverse.toArray.push tree := by simp
  rw [top, next?_push]
  simp

theorem next?_empty : next? (#[] : Array (Tree α)) = none := rfl

/-- The steps end, and there is only one way that they go. -/
theorem yields_iff {pending items : List (Tree α)} :
    Yields pending.reverse.toArray items ↔ items = walk pending := by
  fun_induction walk pending generalizing items with
  | case1 =>
      constructor
      · intro yields
        cases yields with
        | done => rfl
        | step next => contradiction
      · intro same
        rw [same]
        exact .done next?_empty
  | case2 data children others induction =>
      have top := next?_pending (node data children) others
      constructor
      · intro yields
        cases yields with
        | done empty =>
            rw [empty] at top
            contradiction
        | step next later =>
            rw [next] at top
            obtain ⟨rfl, rfl⟩ := Prod.mk.inj (Option.some.inj top)
            rw [induction.mp later]
      · intro same
        rw [same]
        exact .step top (induction.mpr rfl)

theorem seeks_iff {test : α → Bool} {pending : List (Tree α)} {found : Option (Tree α)} :
    Seeks test pending.reverse.toArray found ↔
      found = (walk pending).find? fun tree => test tree.data := by
  fun_induction walk pending generalizing found with
  | case1 =>
      constructor
      · intro seeks
        cases seeks with
        | nowhere => rfl
        | here next => contradiction
        | later next => contradiction
      · intro same
        rw [same]
        exact .nowhere next?_empty
  | case2 data children others induction =>
      have top := next?_pending (node data children) others
      rw [List.find?_cons]
      constructor
      · intro seeks
        cases seeks with
        | nowhere empty =>
            rw [empty] at top
            contradiction
        | here next passes =>
            rw [next] at top
            obtain ⟨rfl, rfl⟩ := Prod.mk.inj (Option.some.inj top)
            rw [passes]
        | later next fails search =>
            rw [next] at top
            obtain ⟨rfl, rfl⟩ := Prod.mk.inj (Option.some.inj top)
            rw [fails]
            exact induction.mp search
      · intro same
        rw [same]
        cases answer : test (node data children).data with
        | true => exact .here top answer
        | false => exact .later top answer (induction.mpr rfl)

theorem subtreesAll_append (first second : List (Tree α)) :
    subtreesAll (first ++ second) = subtreesAll first ++ subtreesAll second := by
  induction first with
  | nil => rfl
  | cons tree trees induction =>
      rw [List.cons_append, subtreesAll, subtreesAll, induction, List.append_assoc]

theorem walk_eq_subtreesAll (pending : List (Tree α)) : walk pending = subtreesAll pending := by
  fun_induction walk pending with
  | case1 => rfl
  | case2 data children others induction =>
      rw [induction, subtreesAll_append, subtreesAll, subtrees, List.cons_append]

theorem descendants_eq_subtrees (tree : Tree α) : tree.descendants = tree.subtrees := by
  rw [descendants, walk_eq_subtreesAll, subtreesAll, subtreesAll, List.append_nil]

theorem length_descendants (tree : Tree α) : tree.descendants.length = tree.size := by
  rw [← length_preorder, ← map_data_descendants, List.length_map]

theorem subtree?_child (data : α) (former : List (Tree α)) (tree : Tree α) (latter : List (Tree α))
    (place : List Nat) :
    (node data (former ++ tree :: latter)).subtree? (former.length :: place) =
      tree.subtree? place := by
  simp [subtree?, children]

theorem mem_placesFrom {index : Nat} {trees : List (Tree α)} {place : List Nat} :
    place ∈ placesFrom index trees ↔
      ∃ count below child, place = (index + count) :: below ∧ trees[count]? = some child ∧
        below ∈ child.places := by
  induction trees generalizing index with
  | nil => simp [placesFrom]
  | cons tree trees induction =>
      rw [placesFrom, List.mem_append, List.mem_map, induction]
      constructor
      · intro either
        cases either with
        | inl here =>
            obtain ⟨below, inside, same⟩ := here
            exact ⟨0, below, tree, same.symm, rfl, inside⟩
        | inr later =>
            obtain ⟨count, below, child, same, there, inside⟩ := later
            have shifted : index + 1 + count = index + (count + 1) := by omega
            exact ⟨count + 1, below, child, shifted ▸ same, there, inside⟩
      · intro found
        obtain ⟨count, below, child, same, there, inside⟩ := found
        cases count with
        | zero =>
            left
            obtain rfl := Option.some.inj there
            exact ⟨below, inside, same.symm⟩
        | succ count =>
            right
            have shifted : index + (count + 1) = index + 1 + count := by omega
            exact ⟨count, below, child, shifted ▸ same, there, inside⟩

theorem mem_places {tree : Tree α} {place : List Nat} :
    place ∈ tree.places ↔ (tree.subtree? place).isSome := by
  induction tree using children_induction generalizing place with
  | step data siblings induction =>
      rw [places, List.mem_cons, mem_placesFrom]
      cases place with
      | nil => simp [subtree?]
      | cons index place =>
          simp only [subtree?, children, Nat.zero_add, List.cons.injEq]
          cases there : siblings[index]? with
          | none => simp [there]
          | some child =>
              have below : place ∈ child.places ↔ (child.subtree? place).isSome :=
                induction child (List.mem_of_getElem? there)
              simp [there, below]

theorem map_subtree?_placesFrom (data : α) (former trees : List (Tree α))
    (same : ∀ tree ∈ trees, tree.places.map tree.subtree? = tree.subtrees.map some) :
    (placesFrom former.length trees).map (node data (former ++ trees)).subtree? =
      (subtreesAll trees).map some := by
  induction trees generalizing former with
  | nil => rfl
  | cons tree trees induction =>
      have first := same tree List.mem_cons_self
      have others := induction (former ++ [tree]) fun other member =>
        same other (List.mem_cons_of_mem tree member)
      rw [List.length_append, List.length_singleton, List.append_assoc] at others
      rw [placesFrom, subtreesAll, List.map_append, List.map_append, ← first]
      congr 1
      · rw [List.map_map]
        apply List.map_congr_left
        intro place _
        exact subtree?_child data former tree trees place

theorem map_subtree?_places (tree : Tree α) :
    tree.places.map tree.subtree? = tree.subtrees.map some := by
  induction tree using children_induction with
  | step data siblings induction =>
      have below := map_subtree?_placesFrom data [] siblings induction
      rw [places, subtrees, List.map_cons, List.map_cons]
      exact congrArg _ below

theorem rising_placesFrom {index : Nat} {trees : List (Tree α)}
    (rising : ∀ tree ∈ trees, tree.places.Pairwise (· < ·)) :
    (placesFrom index trees).Pairwise (· < ·) := by
  induction trees generalizing index with
  | nil => exact List.Pairwise.nil
  | cons tree trees induction =>
      have others : (placesFrom (index + 1) trees).Pairwise (· < ·) :=
        induction fun other member => rising other (List.mem_cons_of_mem tree member)
      rw [placesFrom, List.pairwise_append, List.pairwise_map]
      constructor
      · apply (rising tree List.mem_cons_self).imp
        intro first second before
        exact List.cons_lt_cons_iff.mpr (.inr ⟨rfl, before⟩)
      constructor
      · exact others
      · intro first here second later
        obtain ⟨place, -, rfl⟩ := List.mem_map.mp here
        obtain ⟨count, below, child, rfl, -⟩ := mem_placesFrom.mp later
        have smaller : index < index + 1 + count := by omega
        exact List.cons_lt_cons_iff.mpr (.inl smaller)

theorem rising_places (tree : Tree α) : tree.places.Pairwise (· < ·) := by
  induction tree using children_induction with
  | step data siblings induction =>
      rw [places, List.pairwise_cons]
      constructor
      · intro place member
        obtain ⟨count, below, child, rfl, -⟩ := mem_placesFrom.mp member
        exact List.nil_lt_cons _ _
      · exact rising_placesFrom induction

theorem documentOrder_descendants (tree : Tree α) :
    DocumentOrder tree tree.places tree.descendants where
  rising := rising_places tree
  complete _ := mem_places
  there := by rw [map_subtree?_places, descendants_eq_subtrees]

end SessionReplay.Tree

namespace SessionReplay.Document

open SessionReplay.Tree

theorem find?_eq_some_iff {id : NodeId} {tree part : Tree Node} :
    find? id tree = some part ↔ part.data.id = id ∧ ∃ before after,
      tree.subtrees = before ++ part :: after ∧ ∀ other ∈ before, other.data.id ≠ id := by
  rw [find?, Tree.find?, descendants_eq_subtrees, List.find?_eq_some_iff_append]
  simp

theorem find?_id_eq_none_iff {id : NodeId} {tree : Tree Node} :
    find? id tree = none ↔ id ∉ ids tree := by
  rw [find?, find?_eq_none_iff, ids, List.mem_map]
  simp

/-- The steps from a tree end and give its subtrees as they follow each other in the document, as
many as the tree has nodes, and a search gives the first one whose node has the id. -/
theorem yields_descendants (tree : Tree Node) :
    (∀ items, Yields #[tree] items ↔ items = tree.descendants) ∧
      tree.descendants = tree.subtrees ∧
      (∃ ways, DocumentOrder tree ways tree.descendants) ∧
      tree.descendants.length = tree.size ∧
      ∀ id, (∀ found, Seeks (·.id = id) #[tree] found ↔ found = find? id tree) ∧
        (find? id tree = none ↔ id ∉ ids tree) ∧
        ∀ part, find? id tree = some part ↔ part.data.id = id ∧ ∃ before after,
          tree.subtrees = before ++ part :: after ∧ ∀ other ∈ before, other.data.id ≠ id := by
  have stack : #[tree] = [tree].reverse.toArray := rfl
  constructor
  · intro items
    rw [stack]
    exact yields_iff
  constructor
  · exact descendants_eq_subtrees tree
  constructor
  · exact ⟨tree.places, documentOrder_descendants tree⟩
  constructor
  · exact length_descendants tree
  · intro id
    constructor
    · intro found
      rw [stack]
      exact seeks_iff
    · exact ⟨find?_id_eq_none_iff, fun _ => find?_eq_some_iff⟩

end SessionReplay.Document
