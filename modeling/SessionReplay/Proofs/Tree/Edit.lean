import SessionReplay.Proofs.Tree.Shape
import Mathlib.Data.List.Flatten
import Mathlib.Data.List.Nodup
import Mathlib.Data.List.Perm.Basic
import Mathlib.Data.List.TakeWhile

/-!
Edits of a tree whose nodes are told apart by keys. An edit names the nodes it is about and is
refused when one of them is not there, or when the node it brings is there already. The main
statement is that edits which name nothing outside one child's subtree can be played there alone.
-/

namespace SessionReplay

/-- One change of a tree. A subtree is added in front of the sibling `next`, or at the end. -/
inductive Edit (κ : Type u) (α : Type v) where
  | remove (parent target : κ)
  | add (parent : κ) (next : Option κ) (subtree : Tree α)
  | revise (target : κ) (change : α → Option α)

namespace Tree

variable {κ : Type u} {α : Type v} [DecidableEq κ] (key : α → κ)

/-- The keys of the nodes, in document order. -/
def keys (tree : Tree α) : List κ := tree.preorder.map key

omit [DecidableEq κ] in
theorem keys_node (data : α) (children : List (Tree α)) :
    (node data children).keys key = key data :: children.flatMap (keys key) := by
  simp only [keys, preorder_node, List.map_cons, List.map_flatMap]
  rfl

omit [DecidableEq κ] in
theorem key_data_mem_keys (tree : Tree α) : key tree.data ∈ tree.keys key :=
  List.mem_map_of_mem (data_mem_preorder tree)

omit [DecidableEq κ] in
theorem root_keys_sublist (children : List (Tree α)) :
    (children.map (key ·.data)).Sublist (children.flatMap (keys key)) := by
  induction children with
  | nil => exact List.Sublist.refl _
  | cons child children induction =>
      have root : [key child.data].Sublist (child.keys key) :=
        List.singleton_sublist.mpr (key_data_mem_keys key child)
      exact root.append induction

omit [DecidableEq κ] in
theorem child_keys_nodup {key : α → κ} {tree : Tree α} (distinct : (tree.keys key).Nodup) :
    (tree.children.map (key ·.data)).Nodup := by
  cases tree with
  | node data children =>
      rw [keys_node] at distinct
      exact (root_keys_sublist key children).nodup (List.nodup_cons.mp distinct).2

mutual

/-- Changes the node with a key, together with its children. -/
def changeAt (target : κ) (change : α → List (Tree α) → Option (Tree α)) :
    Tree α → Option (Tree α)
  | node data children =>
      if key data = target then change data children
      else (changeAtAll target change children).map (node data)

def changeAtAll (target : κ) (change : α → List (Tree α) → Option (Tree α)) :
    List (Tree α) → Option (List (Tree α))
  | [] => none
  | tree :: trees =>
      match changeAt target change tree with
      | some changed => some (changed :: trees)
      | none => (changeAtAll target change trees).map (tree :: ·)

end

def removeChild (target : κ) (data : α) (children : List (Tree α)) : Option (Tree α) :=
  if target ∈ children.map (key ·.data) then
    some (node data (children.filter (key ·.data ≠ target)))
  else none

/-- Without a `next` nothing is in front of the end. -/
def insertChild (next : Option κ) (subtree : Tree α) (data : α) (children : List (Tree α)) :
    Option (Tree α) :=
  let front := children.takeWhile fun child => some (key child.data) ≠ next
  let back := children.dropWhile fun child => some (key child.data) ≠ next
  if back.head?.map (key ·.data) = next then some (node data (front ++ subtree :: back)) else none

/-- A node keeps its key. -/
def reviseData (change : α → Option α) (data : α) (children : List (Tree α)) : Option (Tree α) :=
  ((change data).filter (key · = key data)).map (node · children)

def edit : Edit κ α → Tree α → Option (Tree α)
  | .remove parent target, tree => tree.changeAt key parent (removeChild key target)
  | .add parent next subtree, tree =>
      if (subtree.keys key ++ tree.keys key).Nodup then
        tree.changeAt key parent (insertChild key next subtree)
      else none
  | .revise target change, tree => tree.changeAt key target (reviseData key change)

/-- Plays edits one after the other, up to the first that is refused. -/
def play : List (Edit κ α) → Tree α → Option (Tree α)
  | [], tree => some tree
  | first :: edits, tree => (tree.edit key first).bind (play edits)

theorem play_append (first second : List (Edit κ α)) (tree : Tree α) :
    tree.play key (first ++ second) = (tree.play key first).bind (play key second) := by
  induction first generalizing tree with
  | nil => rfl
  | cons edit edits induction =>
      simp only [List.cons_append, play, Option.bind_assoc]
      exact congrArg _ (funext induction)

end Tree

/-- The keys that an edit is about: of the nodes it changes, and of those it brings. -/
def Edit.names {κ : Type u} {α : Type v} (key : α → κ) : Edit κ α → List κ
  | remove parent _ => [parent]
  | add parent _ subtree => parent :: subtree.keys key
  | revise target _ => [target]

namespace Tree

variable {κ : Type u} {α : Type v} {key : α → κ}

/-- A node with one of its subtrees left open. -/
structure Frame (α : Type v) where
  data : α
  before : List (Tree α)
  after : List (Tree α)

/-- Puts a tree into the innermost of nested frames, the outermost of which comes first. -/
def plug : List (Frame α) → Tree α → Tree α
  | [], tree => tree
  | frame :: frames, tree => node frame.data (frame.before ++ plug frames tree :: frame.after)

theorem preorder_plug (frames : List (Frame α)) : ∃ before after : List α, ∀ tree : Tree α,
    (plug frames tree).preorder = before ++ tree.preorder ++ after := by
  induction frames with
  | nil => exact ⟨[], [], fun tree => by simp [plug]⟩
  | cons frame frames induction =>
      obtain ⟨before, after, inner⟩ := induction
      refine ⟨frame.data :: (frame.before.flatMap preorder ++ before),
        after ++ frame.after.flatMap preorder, fun tree => ?_⟩
      simp [plug, preorder_node, inner]

variable [DecidableEq κ]

mutual

/-- A change that goes through happens in a frame, and leaves the frame alone. -/
theorem plug_of_changeAt {target : κ} {change : α → List (Tree α) → Option (Tree α)} :
    {tree result : Tree α} → tree.changeAt key target change = some result →
    ∃ frames data children changed, tree = plug frames (node data children) ∧
      key data = target ∧ change data children = some changed ∧ result = plug frames changed
  | node data children, result, done => by
      rw [changeAt] at done
      split at done
      case isTrue here => exact ⟨[], data, children, result, rfl, here, done, rfl⟩
      case isFalse elsewhere =>
        obtain ⟨trees, below, rfl⟩ := Option.map_eq_some_iff.mp done
        obtain ⟨before, after, frames, inner, offspring, changed, rfl, here, inside, rfl⟩ :=
          plug_of_changeAtAll below
        exact ⟨⟨data, before, after⟩ :: frames, inner, offspring, changed, rfl, here, inside, rfl⟩

theorem plug_of_changeAtAll {target : κ} {change : α → List (Tree α) → Option (Tree α)} :
    {trees results : List (Tree α)} → changeAtAll key target change trees = some results →
    ∃ before after frames data children changed,
      trees = before ++ plug frames (node data children) :: after ∧
      key data = target ∧ change data children = some changed ∧
      results = before ++ plug frames changed :: after
  | [], _, done => by simp [changeAtAll] at done
  | tree :: trees, results, done => by
      rw [changeAtAll] at done
      split at done
      case h_1 result first =>
        obtain ⟨frames, data, children, changed, rfl, here, inside, rfl⟩ := plug_of_changeAt first
        cases done
        exact ⟨[], trees, frames, data, children, changed, rfl, here, inside, rfl⟩
      case h_2 =>
        obtain ⟨rest, later, rfl⟩ := Option.map_eq_some_iff.mp done
        obtain ⟨before, after, frames, data, children, changed, rfl, here, inside, rfl⟩ :=
          plug_of_changeAtAll later
        exact ⟨tree :: before, after, frames, data, children, changed, rfl, here, inside, rfl⟩

end

theorem changeAtAll_eq_none {target : κ} {change : α → List (Tree α) → Option (Tree α)}
    {trees : List (Tree α)} (none : ∀ tree ∈ trees, tree.changeAt key target change = none) :
    changeAtAll key target change trees = .none := by
  induction trees with
  | nil => rfl
  | cons tree trees induction =>
      obtain ⟨first, rest⟩ := List.forall_mem_cons.mp none
      simp [changeAtAll, first, induction rest]

theorem changeAt_eq_none {target : κ} {change : α → List (Tree α) → Option (Tree α)}
    {tree : Tree α} (absent : target ∉ tree.keys key) : tree.changeAt key target change = none := by
  induction tree using children_induction with
  | step data children induction =>
      simp only [keys_node, List.mem_cons, List.mem_flatMap, not_or, not_exists, not_and] at absent
      obtain ⟨elsewhere, below⟩ := absent
      rw [changeAt, if_neg (Ne.symm elsewhere),
        changeAtAll_eq_none fun child member => induction child member (below child member)]
      rfl

/-- A change at a node below one child is a change of that child. -/
theorem changeAt_child {target : κ} {change : α → List (Tree α) → Option (Tree α)} {data : α}
    {before after : List (Tree α)} {child : Tree α} (root : target ≠ key data)
    (left : target ∉ before.flatMap (keys key)) (right : target ∉ after.flatMap (keys key)) :
    (node data (before ++ child :: after)).changeAt key target change =
      (child.changeAt key target change).map fun changed =>
        node data (before ++ changed :: after) := by
  rw [changeAt, if_neg (Ne.symm root)]
  have trees : changeAtAll key target change (before ++ child :: after) =
      (child.changeAt key target change).map fun changed => before ++ changed :: after := by
    clear root
    induction before with
    | nil =>
        have rest : changeAtAll key target change after = none :=
          changeAtAll_eq_none fun tree member => changeAt_eq_none fun inside =>
            right (List.mem_flatMap.mpr ⟨tree, member, inside⟩)
        cases found : child.changeAt key target change <;> simp [changeAtAll, found, rest]
    | cons first before induction =>
        simp only [List.flatMap_cons, List.mem_append, not_or] at left
        simp only [List.cons_append, changeAtAll, changeAt_eq_none left.1, induction left.2,
          Option.map_map, Function.comp_def]
  rw [trees, Option.map_map]
  rfl

theorem changeAt_root {target : κ} {change : α → List (Tree α) → Option (Tree α)} {data : α}
    {children : List (Tree α)} (root : key data = target) :
    (node data children).changeAt key target change = change data children := by
  rw [changeAt, if_pos root]

theorem play_revise {target : κ} {change : α → Option α} {data revised : α}
    {children : List (Tree α)} (root : key data = target) (became : change data = some revised)
    (same : key revised = key data) :
    (node data children).play key [.revise target change] = some (node revised children) := by
  rw [play, edit, changeAt_root root, reviseData, became, Option.filter_some,
    if_pos (decide_eq_true same)]
  rfl

theorem insertChild_split {next : Option κ} {subtree : Tree α} {data : α}
    {front back : List (Tree α)} (passed : ∀ child ∈ front, some (key child.data) ≠ next)
    (found : back.head?.map (key ·.data) = next) :
    insertChild key next subtree data (front ++ back) =
      some (node data (front ++ subtree :: back)) := by
  have taken : back.takeWhile (fun child => some (key child.data) ≠ next) = [] ∧
      back.dropWhile (fun child => some (key child.data) ≠ next) = back := by
    cases back with
    | nil => exact ⟨rfl, rfl⟩
    | cons first rest =>
        have here : some (key first.data) = next := by simpa using found
        simp [here]
  simp only [insertChild]
  rw [List.takeWhile_append_of_pos (by simpa using passed),
    List.dropWhile_append_of_pos (by simpa using passed), taken.1, taken.2, if_pos found,
    List.append_nil]

theorem split_of_insertChild {next : Option κ} {subtree changed : Tree α} {data : α}
    {children : List (Tree α)} (done : insertChild key next subtree data children = some changed) :
    ∃ front back, children = front ++ back ∧ changed = node data (front ++ subtree :: back) ∧
      (∀ child ∈ front, some (key child.data) ≠ next) ∧
      back.head?.map (key ·.data) = next := by
  simp only [insertChild, Option.ite_none_right_eq_some, Option.some.injEq] at done
  refine ⟨_, _, (List.takeWhile_append_dropWhile ..).symm, done.2.symm, ?_, done.1⟩
  intro child member
  simpa using List.mem_takeWhile_imp member

omit [DecidableEq κ] in
theorem keys_plug (key : α → κ) (frames : List (Frame α)) :
    ∃ before after : List κ, ∀ tree : Tree α,
    (plug frames tree).keys key = before ++ tree.keys key ++ after := by
  obtain ⟨before, after, inner⟩ := preorder_plug frames
  exact ⟨before.map key, after.map key, fun tree => by simp [keys, inner]⟩

/-- A removal takes keys out and moves none. -/
theorem keys_remove {parent target : κ} {tree result : Tree α}
    (done : tree.edit key (.remove parent target) = some result) :
    (result.keys key).Sublist (tree.keys key) := by
  obtain ⟨frames, data, children, changed, rfl, -, inside, rfl⟩ := plug_of_changeAt done
  obtain ⟨before, after, around⟩ := keys_plug key frames
  simp only [removeChild, Option.ite_none_right_eq_some, Option.some.injEq] at inside
  obtain ⟨-, rfl⟩ := inside
  rw [around, around, keys_node, keys_node]
  refine ((List.Sublist.cons_cons _ ?_).append_left before).append_right after
  exact List.filter_sublist.flatMap (keys key)

/-- An addition brings the keys of its subtree, and these only. -/
theorem keys_add {parent : κ} {next : Option κ} {subtree tree result : Tree α}
    (done : tree.edit key (.add parent next subtree) = some result) :
    (subtree.keys key ++ tree.keys key).Nodup ∧
      (result.keys key).Perm (subtree.keys key ++ tree.keys key) := by
  simp only [edit, Option.ite_none_right_eq_some] at done
  obtain ⟨distinct, altered⟩ := done
  obtain ⟨frames, data, children, changed, rfl, -, inside, rfl⟩ := plug_of_changeAt altered
  obtain ⟨before, after, around⟩ := keys_plug key frames
  obtain ⟨front, back, rfl, rfl, -, -⟩ := split_of_insertChild inside
  refine ⟨distinct, List.perm_iff_count.mpr fun name => ?_⟩
  simp only [around, keys_node, List.flatMap_append, List.flatMap_cons, List.count_append,
    List.count_cons]
  omega

theorem keys_revise {target : κ} {change : α → Option α} {tree result : Tree α}
    (done : tree.edit key (.revise target change) = some result) :
    result.keys key = tree.keys key := by
  obtain ⟨frames, data, children, changed, rfl, -, inside, rfl⟩ := plug_of_changeAt done
  obtain ⟨before, after, around⟩ := keys_plug key frames
  simp only [reviseData, Option.map_eq_some_iff, Option.filter_eq_some_iff, decide_eq_true_eq]
    at inside
  obtain ⟨revised, ⟨-, same⟩, rfl⟩ := inside
  rw [around, around, keys_node, keys_node, same]

/-- An edit keeps the keys distinct and brings none that it does not name. -/
theorem keys_edit {change : Edit κ α} {tree result : Tree α}
    (distinct : (tree.keys key).Nodup) (done : tree.edit key change = some result) :
    (result.keys key).Nodup ∧
      ∀ name ∈ result.keys key, name ∈ change.names key ∨ name ∈ tree.keys key := by
  cases change with
  | remove parent target =>
      have fewer := keys_remove done
      exact ⟨fewer.nodup distinct, fun name inside => .inr (fewer.subset inside)⟩
  | add parent next subtree =>
      obtain ⟨fresh, same⟩ := keys_add done
      refine ⟨same.nodup_iff.mpr fresh, fun name inside => ?_⟩
      rcases List.mem_append.mp (same.mem_iff.mp inside) with brought | kept
      · exact .inl (List.mem_cons_of_mem _ brought)
      · exact .inr kept
  | revise target change =>
      rw [keys_revise done]
      exact ⟨distinct, fun name inside => .inr inside⟩

theorem keys_play {edits : List (Edit κ α)} {tree result : Tree α}
    (distinct : (tree.keys key).Nodup) (done : tree.play key edits = some result) :
    (result.keys key).Nodup := by
  induction edits generalizing tree with
  | nil =>
      cases done
      exact distinct
  | cons edit edits induction =>
      obtain ⟨changed, first, rest⟩ := Option.bind_eq_some_iff.mp done
      exact induction (keys_edit distinct first).1 rest

/-- The keys of a node and its children, apart from those of one child. -/
def siblingKeys (key : α → κ) (data : α) (before after : List (Tree α)) : List κ :=
  key data :: (before.flatMap (keys key) ++ after.flatMap (keys key))

omit [DecidableEq κ] in
theorem keys_node_child (key : α → κ) (data : α) (before after : List (Tree α)) (child : Tree α) :
    ((node data (before ++ child :: after)).keys key).Perm
      (child.keys key ++ siblingKeys key data before after) := by
  classical
  apply List.perm_iff_count.mpr
  intro name
  simp only [keys_node, siblingKeys, List.flatMap_append, List.flatMap_cons, List.count_append,
    List.count_cons]
  omega

omit [DecidableEq κ] in
theorem siblingKeys_eq (key : α → κ) (data : α) (before after : List (Tree α)) :
    siblingKeys key data before after = (node data (before ++ after)).keys key := by
  rw [siblingKeys, keys_node, List.flatMap_append]

omit [DecidableEq κ] in
theorem siblings_apart {data : α} {before after : List (Tree α)}
    (distinct : ((node data (before ++ after)).keys key).Nodup) {first second : Tree α}
    (left : first ∈ before) (right : second ∈ after) : key first.data ≠ key second.data := by
  rw [keys_node, List.flatMap_append] at distinct
  have disjoint := (List.nodup_append.mp (List.nodup_cons.mp distinct).2).2.2
  exact disjoint _ (List.mem_flatMap.mpr ⟨first, left, key_data_mem_keys key first⟩)
    _ (List.mem_flatMap.mpr ⟨second, right, key_data_mem_keys key second⟩)

/-- An edit that names nothing beside a child can be carried out in the child alone. -/
theorem edit_child {change : Edit κ α} {data : α} {before after : List (Tree α)} {child : Tree α}
    (distinct : ((node data (before ++ child :: after)).keys key).Nodup)
    (apart : ∀ name ∈ change.names key, name ∉ siblingKeys key data before after) :
    (node data (before ++ child :: after)).edit key change =
      (child.edit key change).map fun changed => node data (before ++ changed :: after) := by
  have elsewhere : ∀ name ∈ change.names key, name ≠ key data ∧
      name ∉ before.flatMap (keys key) ∧ name ∉ after.flatMap (keys key) := by
    intro name named
    have outside := apart name named
    simp only [siblingKeys, List.mem_cons, List.mem_append, not_or] at outside
    exact outside
  cases change with
  | remove parent target =>
      obtain ⟨root, left, right⟩ := elsewhere parent (by simp [Edit.names])
      exact changeAt_child root left right
  | revise target change =>
      obtain ⟨root, left, right⟩ := elsewhere target (by simp [Edit.names])
      exact changeAt_child root left right
  | add parent next subtree =>
      obtain ⟨root, left, right⟩ := elsewhere parent (by simp [Edit.names])
      have fresh : (subtree.keys key ++ (node data (before ++ child :: after)).keys key).Nodup ↔
          (subtree.keys key ++ child.keys key).Nodup := by
        have regrouped := (keys_node_child key data before after child).append_left
          (subtree.keys key)
        rw [regrouped.nodup_iff, ← List.append_assoc, List.nodup_append]
        have others := (keys_node_child key data before after child).nodup_iff.mp distinct
        rw [List.nodup_append] at others
        refine ⟨fun all => all.1, fun inner => ⟨inner, others.2.1, ?_⟩⟩
        intro name inside other outside same
        subst same
        rcases List.mem_append.mp inside with brought | kept
        · exact apart name (List.mem_cons_of_mem _ brought) outside
        · exact others.2.2 name kept name outside rfl
      simp only [edit, changeAt_child root left right]
      by_cases new : (subtree.keys key ++ child.keys key).Nodup
      · rw [if_pos new, if_pos (fresh.mpr new)]
      · rw [if_neg new, if_neg (mt fresh.mp new)]
        rfl

/-- Edits that name nothing beside a child can be played in the child alone. -/
theorem play_child {changes : List (Edit κ α)} {data : α} {before after : List (Tree α)}
    {child : Tree α} (distinct : ((node data (before ++ child :: after)).keys key).Nodup)
    (apart : ∀ change ∈ changes, ∀ name ∈ change.names key,
      name ∉ siblingKeys key data before after) :
    (node data (before ++ child :: after)).play key changes =
      (child.play key changes).map fun changed => node data (before ++ changed :: after) := by
  induction changes generalizing child with
  | nil => rfl
  | cons change changes induction =>
      obtain ⟨first, rest⟩ := List.forall_mem_cons.mp apart
      rw [play, play, edit_child distinct first]
      cases done : child.edit key change with
      | none => rfl
      | some changed =>
          have grouped := (keys_node_child key data before after child).nodup_iff.mp distinct
          obtain ⟨childDistinct, othersDistinct, disjoint⟩ := List.nodup_append.mp grouped
          obtain ⟨changedDistinct, origin⟩ := keys_edit childDistinct done
          apply induction _ rest
          refine (keys_node_child key data before after changed).nodup_iff.mpr
            (List.nodup_append.mpr ⟨changedDistinct, othersDistinct, ?_⟩)
          intro name inside other outside same
          subst same
          rcases origin name inside with named | kept
          · exact first name named outside
          · exact disjoint name kept name outside rfl

theorem keys_play_remove {edits : List (Edit κ α)} {tree result : Tree α}
    (removals : ∀ edit ∈ edits, ∃ parent target, edit = .remove parent target)
    (done : tree.play key edits = some result) : (result.keys key).Sublist (tree.keys key) := by
  induction edits generalizing tree with
  | nil =>
      cases done
      exact List.Sublist.refl _
  | cons edit edits induction =>
      obtain ⟨⟨parent, target, rfl⟩, others⟩ := List.forall_mem_cons.mp removals
      obtain ⟨removed, first, rest⟩ := Option.bind_eq_some_iff.mp done
      exact (induction others rest).trans (keys_remove first)

/-- Removing children of the root one after the other leaves the others in their order. -/
theorem play_removals {parent : κ} {data : α} (root : key data = parent) {gone : List κ}
    {children : List (Tree α)} (distinct : gone.Nodup)
    (present : ∀ name ∈ gone, name ∈ children.map (key ·.data)) :
    (node data children).play key (gone.map (Edit.remove parent)) =
      some (node data (children.filter (key ·.data ∉ gone))) := by
  induction gone generalizing children with
  | nil => simp [play]
  | cons first gone induction =>
      obtain ⟨firstPresent, restPresent⟩ := List.forall_mem_cons.mp present
      obtain ⟨unlike, restDistinct⟩ := List.nodup_cons.mp distinct
      have removed : (node data children).edit key (.remove parent first) =
          some (node data (children.filter (key ·.data ≠ first))) := by
        rw [edit, changeAt_root root, removeChild, if_pos firstPresent]
      have remaining : ∀ name ∈ gone,
          name ∈ (children.filter (key ·.data ≠ first)).map (key ·.data) := by
        intro name member
        obtain ⟨child, inside, same⟩ := List.mem_map.mp (restPresent name member)
        refine List.mem_map.mpr ⟨child, List.mem_filter.mpr ⟨inside, ?_⟩, same⟩
        have other : name ≠ first := fun equal => unlike (equal ▸ member)
        simpa [same] using other
      rw [List.map_cons, play, removed, Option.bind_some, induction restDistinct remaining,
        List.filter_filter]
      congr 2
      apply List.filter_congr
      intro child _
      simp [Bool.and_comm]

/-- With distinct keys a change that goes through at the node with its key goes through. -/
theorem changeAt_inside {change : α → List (Tree α) → Option (Tree α)} {part tree changed : Tree α}
    (inside : Inside part tree) (distinct : (tree.keys key).Nodup)
    (done : change part.data part.children = some changed) :
    ∃ result, tree.changeAt key (key part.data) change = some result := by
  induction inside with
  | itself =>
      cases part with
      | node data children => exact ⟨changed, (changeAt_root rfl).trans done⟩
  | @inner child data children member inside induction =>
      obtain ⟨before, after, rfl⟩ := List.append_of_mem member
      obtain ⟨below, -, apart⟩ := List.nodup_append.mp
        ((keys_node_child key data before after child).nodup_iff.mp distinct)
      have named : key part.data ∈ child.keys key :=
        (inside.preorder_sublist.map key).subset (key_data_mem_keys key part)
      have elsewhere : key part.data ∉ siblingKeys key data before after :=
        fun beside => apart _ named _ beside rfl
      simp only [siblingKeys, List.mem_cons, List.mem_append, not_or] at elsewhere
      obtain ⟨root, left, right⟩ := elsewhere
      obtain ⟨result, inner⟩ := induction below
      exact ⟨_, by rw [changeAt_child root left right, inner]; rfl⟩

theorem insertChild_isSome {next : Option κ} {children : List (Tree α)}
    (there : ∀ name, next = some name → name ∈ children.map (key ·.data)) (subtree : Tree α)
    (data : α) : ∃ changed, insertChild key next subtree data children = some changed := by
  have split : ∃ front back, children = front ++ back ∧
      (∀ child ∈ front, some (key child.data) ≠ next) ∧ back.head?.map (key ·.data) = next := by
    induction children with
    | nil =>
        cases next with
        | none => exact ⟨[], [], rfl, by simp, rfl⟩
        | some name => exact absurd (there name rfl) (by simp)
    | cons first children induction =>
        by_cases here : some (key first.data) = next
        · exact ⟨[], first :: children, rfl, by simp, by simpa using here⟩
        · obtain ⟨front, back, rfl, passed, found⟩ := induction fun name named => by
            rcases List.mem_cons.mp (there name named) with same | later
            · exact absurd (by rw [named, same]) here
            · exact later
          exact ⟨first :: front, back, rfl, List.forall_mem_cons.mpr ⟨here, passed⟩, found⟩
  obtain ⟨front, back, rfl, passed, found⟩ := split
  exact ⟨_, insertChild_split passed found⟩

theorem root_of_removeChild {target : κ} {data : α} {children : List (Tree α)} {changed : Tree α}
    (done : removeChild key target data children = some changed) : changed.data = data := by
  simp only [removeChild, Option.ite_none_right_eq_some, Option.some.injEq] at done
  obtain ⟨-, rfl⟩ := done
  rfl

theorem root_of_insertChild {next : Option κ} {subtree changed : Tree α} {data : α}
    {children : List (Tree α)} (done : insertChild key next subtree data children = some changed) :
    changed.data = data := by
  obtain ⟨front, back, -, rfl, -, -⟩ := split_of_insertChild done
  rfl

theorem root_of_reviseData {change : α → Option α} {data : α} {children : List (Tree α)}
    {changed : Tree α} (done : reviseData key change data children = some changed) :
    key changed.data = key data := by
  simp only [reviseData, Option.map_eq_some_iff, Option.filter_eq_some_iff, decide_eq_true_eq]
    at done
  obtain ⟨revised, ⟨-, same⟩, rfl⟩ := done
  exact same

/-- An edit leaves the root where it is. -/
theorem root_of_edit {change : Edit κ α} {tree result : Tree α}
    (done : tree.edit key change = some result) : key result.data = key tree.data := by
  have outermost : ∀ (frames : List (Frame α)) (old new : Tree α), key new.data = key old.data →
      key (plug frames new).data = key (plug frames old).data := by
    intro frames old new same
    cases frames with
    | nil => exact same
    | cons frame frames => rfl
  cases change with
  | remove parent target =>
      obtain ⟨frames, data, children, changed, rfl, -, inside, rfl⟩ := plug_of_changeAt done
      exact outermost _ _ _ (congrArg key (root_of_removeChild inside))
  | add parent next subtree =>
      simp only [edit, Option.ite_none_right_eq_some] at done
      obtain ⟨frames, data, children, changed, rfl, -, inside, rfl⟩ := plug_of_changeAt done.2
      exact outermost _ _ _ (congrArg key (root_of_insertChild inside))
  | revise target change =>
      obtain ⟨frames, data, children, changed, rfl, -, inside, rfl⟩ := plug_of_changeAt done
      exact outermost _ _ _ (root_of_reviseData inside)

theorem root_of_play {changes : List (Edit κ α)} {tree result : Tree α}
    (done : tree.play key changes = some result) : key result.data = key tree.data := by
  induction changes generalizing tree with
  | nil =>
      cases done
      rfl
  | cons change changes induction =>
      obtain ⟨changed, first, rest⟩ := Option.bind_eq_some_iff.mp done
      exact (induction rest).trans (root_of_edit first)

end Tree

end SessionReplay
