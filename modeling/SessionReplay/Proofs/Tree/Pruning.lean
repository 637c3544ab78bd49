import SessionReplay.Proofs.Tree.Edit

/-!
Subtrees that are taken out of a tree. Taking out one after the other, in whatever order, leaves the
tree without all of them. The main statement is that two removals can change places as long as what
they are about is still there afterwards.
-/

namespace SessionReplay.Tree

variable {κ : Type u} {α : Type v} {key : α → κ}

section Parts

/-- A node below one child is neither the root nor below another child. -/
theorem not_beside {data : α} {before after : List (Tree α)} {child : Tree α}
    (distinct : ((node data (before ++ child :: after)).keys key).Nodup) {name : κ}
    (inside : name ∈ child.keys key) : name ≠ key data ∧ name ∉ before.flatMap (keys key) ∧
      name ∉ after.flatMap (keys key) := by
  have grouped := (keys_node_child key data before after child).nodup_iff.mp distinct
  have beside : name ∉ siblingKeys key data before after :=
    fun outside => (List.nodup_append.mp grouped).2.2 name inside name outside rfl
  simpa only [siblingKeys, List.mem_cons, List.mem_append, not_or] using beside

theorem child_eq {data : α} {children : List (Tree α)}
    (distinct : ((node data children).keys key).Nodup) {first second : Tree α}
    (firstHere : first ∈ children) (secondHere : second ∈ children) {name : κ}
    (inFirst : name ∈ first.keys key) (inSecond : name ∈ second.keys key) : first = second := by
  obtain ⟨before, after, rfl⟩ := List.append_of_mem firstHere
  obtain ⟨-, left, right⟩ := not_beside distinct inFirst
  rcases List.mem_append.mp secondHere with earlier | later
  · exact absurd (List.mem_flatMap.mpr ⟨second, earlier, inSecond⟩) left
  · rcases List.mem_cons.mp later with same | later
    · exact same.symm
    · exact absurd (List.mem_flatMap.mpr ⟨second, later, inSecond⟩) right

theorem root_not_below {data : α} {children : List (Tree α)}
    (distinct : ((node data children).keys key).Nodup) {child : Tree α}
    (member : child ∈ children) : key data ∉ child.keys key := by
  rw [keys_node, List.nodup_cons] at distinct
  exact fun inside => distinct.1 (List.mem_flatMap.mpr ⟨child, member, inside⟩)

theorem Inside.keys_sublist {part tree : Tree α} (inside : Inside part tree) :
    (part.keys key).Sublist (tree.keys key) :=
  inside.preorder_sublist.map key

/-- Parts of a tree with a node in common are part of one another. -/
theorem Inside.nested {first second tree : Tree α} (one : Inside first tree)
    (other : Inside second tree) (distinct : (tree.keys key).Nodup) {name : κ}
    (inFirst : name ∈ first.keys key) (inSecond : name ∈ second.keys key) :
    Inside first second ∨ Inside second first := by
  induction one with
  | itself => exact .inr other
  | @inner child data children member inside induction =>
      cases other with
      | itself => exact .inl (.inner member inside)
      | inner otherMember otherInside =>
          obtain rfl := child_eq distinct member otherMember (inside.keys_sublist.subset inFirst)
            (otherInside.keys_sublist.subset inSecond)
          exact induction otherInside
            ((Inside.inner member (.itself child)).keys_sublist.nodup distinct)

theorem Inside.antisymm {first second : Tree α} (one : Inside first second)
    (other : Inside second first) : first = second := by
  cases one with
  | itself => rfl
  | @inner child data children member inside =>
      have below : child.height < (node data children).height := height_child member
      have up := other.height_le
      have down := inside.height_le
      omega

theorem eq_of_inside {first second tree : Tree α} (one : Inside first tree)
    (other : Inside second tree) (distinct : (tree.keys key).Nodup)
    (same : key first.data = key second.data) : first = second := by
  have alone : ∀ {part whole : Tree α}, Inside part whole → (whole.keys key).Nodup →
      key part.data = key whole.data → part = whole := by
    intro part whole inside distinct same
    cases inside with
    | itself => rfl
    | @inner child data children member inside =>
        have below := inside.keys_sublist.subset (key_data_mem_keys key part)
        rw [same] at below
        exact absurd below (root_not_below distinct member)
  rcases one.nested other distinct (key_data_mem_keys key first)
    (same ▸ key_data_mem_keys key second) with inner | outer
  · exact alone inner (other.keys_sublist.nodup distinct) same
  · exact (alone outer (one.keys_sublist.nodup distinct) same.symm).symm

/-- What has a node below a part among its children is below that part as well. -/
theorem Inside.above {above child part tree : Tree α} (inside : Inside above tree)
    (member : child ∈ above.children) (within : Inside part tree)
    (distinct : (tree.keys key).Nodup) (below : Inside child part) (other : child ≠ part) :
    Inside above part := by
  have held : Inside child above := .of_child member (.itself child)
  have root := key_data_mem_keys key child
  rcases inside.nested within distinct (held.keys_sublist.subset root)
    (below.keys_sublist.subset root) with inner | outer
  · exact inner
  · cases outer with
    | itself => exact .itself _
    | inner listed deeper =>
        have apart := inside.keys_sublist.nodup distinct
        obtain rfl := child_eq apart listed member
          ((below.trans deeper).keys_sublist.subset root) root
        exact absurd (below.antisymm deeper) other

theorem Inside.child_apart {above child tree : Tree α} (inside : Inside above tree)
    (member : child ∈ above.children) (distinct : (tree.keys key).Nodup) :
    key child.data ≠ key tree.data := by
  have held : Inside child above := .of_child member (.itself child)
  intro same
  obtain rfl := eq_of_inside (held.trans inside) (.itself tree) distinct same
  obtain rfl := held.antisymm inside
  obtain ⟨data, children⟩ := child
  exact root_not_below distinct member (key_data_mem_keys key _)

end Parts

variable [DecidableEq κ]

mutual

/-- The tree without the subtrees below its root whose own roots have one of these keys. -/
def prune (key : α → κ) (gone : List κ) : Tree α → Tree α
  | node data children => node data (pruneAll key gone children)

def pruneAll (key : α → κ) (gone : List κ) : List (Tree α) → List (Tree α)
  | [] => []
  | tree :: trees =>
      if key tree.data ∈ gone then pruneAll key gone trees
      else prune key gone tree :: pruneAll key gone trees

end

theorem prune_node (gone : List κ) (data : α) (children : List (Tree α)) :
    (node data children).prune key gone =
      node data ((children.filter (key ·.data ∉ gone)).map (prune key gone)) := by
  have all : pruneAll key gone children =
      (children.filter (key ·.data ∉ gone)).map (prune key gone) := by
    induction children with
    | nil => rfl
    | cons child children induction =>
        by_cases leaves : key child.data ∈ gone
        · simp [pruneAll, leaves, induction]
        · simp [pruneAll, leaves, induction]
  rw [prune, all]

theorem data_prune (gone : List κ) (tree : Tree α) : (tree.prune key gone).data = tree.data := by
  cases tree with
  | node data children => rw [prune_node, Tree.data, Tree.data]

theorem children_prune (gone : List κ) (tree : Tree α) : (tree.prune key gone).children =
    (tree.children.filter (key ·.data ∉ gone)).map (prune key gone) := by
  cases tree with
  | node data children => rw [prune_node, Tree.children, Tree.children]

theorem prune_prune (first second : List κ) (tree : Tree α) :
    (tree.prune key first).prune key second = tree.prune key (first ++ second) := by
  induction tree using children_induction with
  | step data children induction =>
      have names : ∀ child : Tree α, (decide (key child.data ∉ first ++ second)) =
          (decide (key child.data ∉ second) && decide (key child.data ∉ first)) := by
        intro child
        rw [← Bool.decide_and, decide_eq_decide, List.mem_append, not_or, and_comm]
      rw [prune_node, prune_node, prune_node, List.filter_map, List.map_map]
      simp only [Function.comp_def, data_prune, List.filter_filter, names]
      congr 1
      exact List.map_congr_left fun child member => induction child (List.mem_of_mem_filter member)

theorem prune_congr {first second : List κ} (same : ∀ name, name ∈ first ↔ name ∈ second)
    (tree : Tree α) : tree.prune key first = tree.prune key second := by
  induction tree using children_induction with
  | step data children induction =>
      rw [prune_node, prune_node]
      simp only [same]
      congr 1
      exact List.map_congr_left fun child member => induction child (List.mem_of_mem_filter member)

theorem prune_comm (first second : List κ) (tree : Tree α) :
    (tree.prune key first).prune key second = (tree.prune key second).prune key first := by
  rw [prune_prune, prune_prune]
  apply prune_congr
  intro name
  rw [List.mem_append, List.mem_append, or_comm]

theorem keys_prune_sublist (gone : List κ) (tree : Tree α) :
    ((tree.prune key gone).keys key).Sublist (tree.keys key) := by
  induction tree using children_induction with
  | step data children induction =>
      rw [prune_node, keys_node, keys_node]
      apply List.Sublist.cons_cons
      have each : ∀ trees : List (Tree α), trees ⊆ children →
          ((trees.map (prune key gone)).flatMap (keys key)).Sublist (trees.flatMap (keys key)) := by
        intro trees listed
        induction trees with
        | nil => exact List.Sublist.refl _
        | cons tree trees others =>
            obtain ⟨here, rest⟩ := List.cons_subset.mp listed
            exact (induction tree here).append (others rest)
      exact (each _ (List.filter_subset_self children)).trans
        (List.filter_sublist.flatMap (keys key))

theorem filter_absent {gone : List κ} {trees : List (Tree α)}
    (absent : ∀ name ∈ gone, name ∉ trees.flatMap (keys key)) :
    trees.filter (key ·.data ∉ gone) = trees := by
  apply List.filter_eq_self.mpr
  intro tree member
  rw [decide_eq_true_eq]
  exact fun leaves => absent _ leaves
    (List.mem_flatMap.mpr ⟨tree, member, key_data_mem_keys key tree⟩)

theorem prune_absent {gone : List κ} {tree : Tree α}
    (absent : ∀ name ∈ gone, name ∉ tree.keys key) : tree.prune key gone = tree := by
  induction tree using children_induction with
  | step data children induction =>
      simp only [keys_node, List.mem_cons, not_or] at absent
      have below : ∀ child ∈ children, child.prune key gone = child := by
        intro child member
        apply induction child member
        intro name leaves inside
        exact (absent name leaves).2 (List.mem_flatMap.mpr ⟨child, member, inside⟩)
      rw [prune_node, filter_absent fun name leaves => (absent name leaves).2,
        List.map_congr_left below, List.map_id']

theorem map_prune_absent {gone : List κ} {trees : List (Tree α)}
    (absent : ∀ name ∈ gone, name ∉ trees.flatMap (keys key)) :
    (trees.filter (key ·.data ∉ gone)).map (prune key gone) = trees := by
  have each : ∀ tree ∈ trees, tree.prune key gone = tree := by
    intro tree member
    apply prune_absent
    exact fun name leaves inside =>
      absent name leaves (List.mem_flatMap.mpr ⟨tree, member, inside⟩)
  rw [filter_absent absent, List.map_congr_left each, List.map_id']

/-- What is taken out below one child is taken out there alone. -/
theorem prune_child {gone : List κ} {data : α} {before after : List (Tree α)} {child : Tree α}
    (left : ∀ name ∈ gone, name ∉ before.flatMap (keys key))
    (right : ∀ name ∈ gone, name ∉ after.flatMap (keys key)) (stays : key child.data ∉ gone) :
    (node data (before ++ child :: after)).prune key gone =
      node data (before ++ child.prune key gone :: after) := by
  rw [prune_node, List.filter_append, List.filter_cons_of_pos (by simpa using stays),
    List.map_append, List.map_cons, map_prune_absent left, map_prune_absent right]

theorem inside_of_prune {gone : List κ} {part tree : Tree α}
    (inside : Inside part (tree.prune key gone)) :
    ∃ former, Inside former tree ∧ part = former.prune key gone := by
  induction tree using children_induction with
  | step data children induction =>
      rw [prune_node] at inside
      cases inside with
      | itself => exact ⟨node data children, .itself _, (prune_node gone data children).symm⟩
      | inner member below =>
          obtain ⟨child, listed, rfl⟩ := List.mem_map.mp member
          have here := List.mem_of_mem_filter listed
          obtain ⟨former, within, same⟩ := induction child here below
          exact ⟨former, .inner here within, same⟩

/-- A part whose root is still there is there without what was taken out. -/
theorem inside_prune {gone : List κ} {part tree : Tree α} (inside : Inside part tree)
    (distinct : (tree.keys key).Nodup) (left : key part.data ∈ (tree.prune key gone).keys key) :
    Inside (part.prune key gone) (tree.prune key gone) := by
  obtain ⟨item, listed, named⟩ := List.mem_map.mp left
  obtain ⟨remaining, within, rfl⟩ := inside_of_mem listed
  obtain ⟨former, before, rfl⟩ := inside_of_prune within
  rw [data_prune] at named
  obtain rfl := eq_of_inside before inside distinct named
  exact within

/-- Nothing is left of a subtree that was taken out. -/
theorem not_left_of_prune {gone : List κ} {part tree : Tree α} (inside : Inside part tree)
    (distinct : (tree.keys key).Nodup) (taken : key part.data ∈ gone) (below : part ≠ tree)
    {name : κ} (member : name ∈ part.keys key) : name ∉ (tree.prune key gone).keys key := by
  induction tree using children_induction with
  | step data children induction =>
      cases inside with
      | itself => exact absurd rfl below
      | inner listed within =>
          have here := within.keys_sublist.subset member
          rw [prune_node, keys_node, List.mem_cons, List.mem_flatMap]
          rintro (root | ⟨pruned, remains, left⟩)
          · exact root_not_below distinct listed (root ▸ here)
          · obtain ⟨sibling, kept, rfl⟩ := List.mem_map.mp remains
            obtain ⟨siblingListed, stays⟩ := List.mem_filter.mp kept
            obtain rfl := child_eq distinct siblingListed listed
              ((keys_prune_sublist gone sibling).subset left) here
            have other : part ≠ sibling := by
              rintro rfl
              simp [taken] at stays
            exact induction sibling listed within
              ((Inside.inner listed (.itself sibling)).keys_sublist.nodup distinct) other left

/-- A node has another among its children. -/
def Holds (key : α → κ) (tree : Tree α) (parent target : κ) : Prop :=
  ∃ above child, Inside above tree ∧ child ∈ above.children ∧ key above.data = parent ∧
    key child.data = target

omit [DecidableEq κ] in
theorem Holds.below {parent target : κ} {tree : Tree α} (holds : Holds key tree parent target)
    (distinct : (tree.keys key).Nodup) : target ≠ key tree.data := by
  obtain ⟨above, child, inside, member, -, rfl⟩ := holds
  exact inside.child_apart member distinct

omit [DecidableEq κ] in
/-- A subtree is not part of another that its parent is not in. -/
theorem Holds.outside {parent : κ} {part other tree : Tree α}
    (holds : Holds key tree parent (key part.data)) (distinct : (tree.keys key).Nodup)
    (inside : Inside part tree) (otherInside : Inside other tree)
    (unlike : key part.data ≠ key other.data) (outside : parent ∉ other.keys key) :
    ¬Inside part other := by
  intro within
  obtain ⟨above, child, here, member, rfl, same⟩ := holds
  obtain rfl := eq_of_inside ((Inside.of_child member (.itself child)).trans here) inside distinct
    same
  have under := here.above member otherInside distinct within fun equal => unlike (equal ▸ rfl)
  exact outside (under.keys_sublist.subset (key_data_mem_keys key above))

theorem holds_of_edit {parent target : κ} {tree result : Tree α}
    (done : tree.edit key (.remove parent target) = some result) :
    Holds key tree parent target := by
  obtain ⟨frames, data, children, changed, rfl, here, removed, -⟩ := plug_of_changeAt done
  simp only [removeChild, Option.ite_none_right_eq_some] at removed
  obtain ⟨child, member, named⟩ := List.mem_map.mp removed.1
  refine ⟨node data children, child, ?_, member, here, named⟩
  clear done
  induction frames with
  | nil => exact .itself _
  | cons frame frames induction =>
      exact .inner (List.mem_append_right _ List.mem_cons_self) induction

/-- To remove a child is to take its subtree out. -/
theorem edit_of_holds {parent target : κ} {tree : Tree α} (distinct : (tree.keys key).Nodup)
    (holds : Holds key tree parent target) :
    tree.edit key (.remove parent target) = some (tree.prune key [target]) := by
  obtain ⟨above, child, inside, member, rfl, rfl⟩ := holds
  rw [edit]
  induction inside with
  | itself =>
      obtain ⟨data, children⟩ := above
      have others : ∀ sibling ∈ children.filter (key ·.data ≠ key child.data),
          sibling.prune key [key child.data] = sibling := by
        intro sibling kept
        obtain ⟨listed, other⟩ := List.mem_filter.mp kept
        apply prune_absent
        rw [List.forall_mem_singleton]
        intro inside
        have same := child_eq distinct listed member inside (key_data_mem_keys key child)
        simp [same] at other
      have named : key child.data ∈ children.map (key ·.data) := List.mem_map_of_mem member
      rw [Tree.data, changeAt_root rfl, removeChild, if_pos named, prune_node]
      simp only [List.mem_singleton]
      rw [List.map_congr_left others, List.map_id']
  | @inner branch data children listed within induction =>
      have below := (Inside.inner listed (.itself branch)).keys_sublist.nodup distinct
      have apart := within.child_apart member below
      have held : Inside child above := .of_child member (.itself child)
      obtain ⟨before, after, rfl⟩ := List.append_of_mem listed
      obtain ⟨root, left, right⟩ := not_beside distinct
        (within.keys_sublist.subset (key_data_mem_keys key above))
      obtain ⟨-, targetLeft, targetRight⟩ := not_beside distinct
        ((held.trans within).keys_sublist.subset (key_data_mem_keys key child))
      rw [changeAt_child root left right, induction below,
        prune_child (List.forall_mem_singleton.mpr targetLeft)
          (List.forall_mem_singleton.mpr targetRight) (by simpa using apart.symm)]
      rfl

theorem holds_of_prune {gone : List κ} {parent target : κ} {tree : Tree α}
    (holds : Holds key (tree.prune key gone) parent target) :
    Holds key tree parent target ∧ target ∉ gone := by
  obtain ⟨above, child, inside, member, rfl, rfl⟩ := holds
  obtain ⟨former, within, rfl⟩ := inside_of_prune inside
  rw [children_prune] at member
  obtain ⟨whole, kept, rfl⟩ := List.mem_map.mp member
  obtain ⟨listed, stays⟩ := List.mem_filter.mp kept
  rw [data_prune, data_prune]
  exact ⟨⟨former, whole, within, listed, rfl, rfl⟩, of_decide_eq_true stays⟩

theorem holds_prune {gone : List κ} {parent target : κ} {tree : Tree α}
    (holds : Holds key tree parent target) (distinct : (tree.keys key).Nodup)
    (there : parent ∈ (tree.prune key gone).keys key) (stays : target ∉ gone) :
    Holds key (tree.prune key gone) parent target := by
  obtain ⟨above, child, inside, member, rfl, rfl⟩ := holds
  refine ⟨_, child.prune key gone, inside_prune inside distinct there, ?_, ?_, ?_⟩
  · rw [children_prune]
    exact List.mem_map_of_mem (List.mem_filter.mpr ⟨member, decide_eq_true stays⟩)
  · rw [data_prune]
  · rw [data_prune]

/-- Two removals can change places when the parent of the first is still there in the end. -/
theorem edit_swap {parent target other sibling : κ} {tree middle result : Tree α}
    (distinct : (tree.keys key).Nodup)
    (first : tree.edit key (.remove parent target) = some middle)
    (second : middle.edit key (.remove other sibling) = some result)
    (there : parent ∈ result.keys key) :
    ∃ instead, tree.edit key (.remove other sibling) = some instead ∧
      instead.edit key (.remove parent target) = some result := by
  have one := holds_of_edit first
  obtain rfl := Option.some.inj (first.symm.trans (edit_of_holds distinct one))
  have left := (keys_prune_sublist [target] tree).nodup distinct
  have two := holds_of_edit second
  obtain rfl := Option.some.inj (second.symm.trans (edit_of_holds left two))
  obtain ⟨before, unlike⟩ := holds_of_prune two
  have instead := edit_of_holds distinct before
  rw [prune_comm] at there
  have still : parent ∈ (tree.prune key [sibling]).keys key :=
    (keys_prune_sublist [target] _).subset there
  have different : target ∉ [sibling] := by
    rw [List.mem_singleton]
    rintro rfl
    exact unlike List.mem_cons_self
  have again := edit_of_holds ((keys_prune_sublist [sibling] tree).nodup distinct)
    (holds_prune one distinct still different)
  exact ⟨_, instead, again.trans (congrArg some (prune_comm _ _ _))⟩

/-- Removals one after the other take out what each of them is about. -/
theorem prune_of_play {gone : List (κ × κ)} {tree result : Tree α}
    (distinct : (tree.keys key).Nodup)
    (done : tree.play key (gone.map fun pair => .remove pair.1 pair.2) = some result) :
    result = tree.prune key (gone.map Prod.snd) ∧ (gone.map Prod.snd).Nodup ∧
      ∀ pair ∈ gone, Holds key tree pair.1 pair.2 := by
  induction gone generalizing tree with
  | nil =>
      cases done
      exact ⟨(prune_absent (List.forall_mem_nil _)).symm, List.nodup_nil, List.forall_mem_nil _⟩
  | cons pair gone induction =>
      obtain ⟨parent, target⟩ := pair
      obtain ⟨middle, first, rest⟩ := Option.bind_eq_some_iff.mp done
      have here := holds_of_edit first
      obtain rfl := Option.some.inj (first.symm.trans (edit_of_holds distinct here))
      obtain ⟨pruned, once, all⟩ :=
        induction ((keys_prune_sublist [target] tree).nodup distinct) rest
      refine ⟨by rw [pruned, prune_prune]; rfl, List.nodup_cons.mpr ⟨?_, once⟩,
        List.forall_mem_cons.mpr ⟨here, fun pair member => (holds_of_prune (all pair member)).1⟩⟩
      intro again
      obtain ⟨pair, member, same⟩ := List.mem_map.mp again
      exact (holds_of_prune (all pair member)).2 (List.mem_singleton.mpr same)

end SessionReplay.Tree
