import SessionReplay.Proofs.Tree.Edit

/-!
Trees that are the same outside one part. Where the nodes are told apart by keys, such a part stands
in the same place of both.
-/

namespace SessionReplay.Tree

variable {α : Type u} {κ : Type v} {part : α → Prop}

/-- Trees of one shape with the same nodes, down to the nodes of a part and what is below them. -/
inductive SameBut (part : α → Prop) : Tree α → Tree α → Prop
  | inside {tree other : Tree α} (here : part tree.data) (there : part other.data) :
      SameBut part tree other
  | outside {data : α} {children others : List (Tree α)}
      (below : List.Forall₂ (SameBut part) children others) :
      SameBut part (node data children) (node data others)

/-- The trees are the same, or they are so around a subtree of the part. -/
def EqualOutside (part : α → Prop) (tree other : Tree α) : Prop :=
  tree = other ∨ ∃ frames inner replaced, tree = plug frames inner ∧ other = plug frames replaced ∧
    part inner.data ∧ part replaced.data

theorem SameBut.refl (tree : Tree α) : SameBut part tree tree := by
  induction tree using children_induction with
  | step data children induction => exact .outside (List.forall₂_same.mpr induction)

theorem EqualOutside.data {tree other : Tree α} (equal : EqualOutside part tree other)
    (top : ¬part tree.data) : tree.data = other.data := by
  rcases equal with rfl | ⟨frames, inner, replaced, rfl, rfl, here, -⟩
  · rfl
  · cases frames with
    | nil => exact absurd here top
    | cons frame frames => rfl

/-- What is the same for all children is the same for the lists of them. -/
theorem eq_of_forall₂ {related : Tree α → Tree α → Prop} {children others : List (Tree α)}
    (below : List.Forall₂ related children others)
    (same : ∀ child ∈ children, ∀ other, related child other → child = other) :
    children = others := by
  rw [← List.map_id' children, ← List.map_id' others]
  exact map_of_forall₂ below same

/-- Where the part is not there, everything is the same. -/
theorem SameBut.eq {tree other : Tree α} (same : SameBut part tree other)
    (absent : ∀ item ∈ tree.preorder, ¬part item) : tree = other := by
  induction tree using children_induction generalizing other with
  | step data children induction =>
      cases same with
      | inside here => exact absurd here (absent data (data_mem_preorder _))
      | outside below =>
          have children : children = _ := eq_of_forall₂ below fun child member other same =>
            induction child member same fun item inside =>
              absent item (mem_preorder_of_child member inside)
          rw [children]

section Keys

variable {key : α → κ} {target : κ}

/-- Children that are the same but for one key are so around one of them, at the most. -/
theorem split_of_sameBut {children others : List (Tree α)}
    (below : List.Forall₂ (SameBut (key · = target)) children others)
    (distinct : (children.flatMap (keys key)).Nodup)
    (each : ∀ child ∈ children, ∀ other, SameBut (key · = target) child other →
      EqualOutside (key · = target) child other) :
    children = others ∨ ∃ before after frames inner replaced,
      children = before ++ plug frames inner :: after ∧
      others = before ++ plug frames replaced :: after ∧
      key inner.data = target ∧ key replaced.data = target := by
  induction below with
  | nil => exact .inl rfl
  | @cons child other children others first rest induction =>
      rw [List.flatMap_cons, List.nodup_append] at distinct
      obtain ⟨-, later, apart⟩ := distinct
      rw [List.forall_mem_cons] at each
      rcases each.1 other first with rfl | ⟨frames, inner, replaced, rfl, rfl, here, there⟩
      · rcases induction later each.2 with
          rfl | ⟨before, after, frames, inner, replaced, rfl, rfl, here, there⟩
        · exact .inl rfl
        · exact .inr ⟨child :: before, after, frames, inner, replaced, rfl, rfl, here, there⟩
      · -- The key is in the first child, and so in none of the others.
        have found : target ∈ (plug frames inner).keys key := by
          obtain ⟨front, back, around⟩ := preorder_plug frames
          rw [keys, around, ← here]
          exact List.mem_map_of_mem
            (List.mem_append_left _ (List.mem_append_right _ (data_mem_preorder inner)))
        have same : children = others := eq_of_forall₂ rest fun child member other same => by
          apply same.eq
          intro item inside named
          have again : target ∈ children.flatMap (keys key) :=
            List.mem_flatMap.mpr ⟨child, member, named ▸ List.mem_map_of_mem inside⟩
          exact apart target found target again rfl
        rw [same]
        exact .inr ⟨[], others, frames, inner, replaced, rfl, rfl, here, there⟩

theorem SameBut.equalOutside {tree other : Tree α} (same : SameBut (key · = target) tree other)
    (distinct : (tree.keys key).Nodup) : EqualOutside (key · = target) tree other := by
  induction tree using children_induction generalizing other with
  | step data children induction =>
      cases same with
      | inside here there => exact .inr ⟨[], _, _, rfl, rfl, here, there⟩
      | outside below =>
          rw [keys_node, List.nodup_cons] at distinct
          have each : ∀ child ∈ children, ∀ other, SameBut (key · = target) child other →
              EqualOutside (key · = target) child other := by
            intro child member other same
            exact induction child member same
              ((List.nodup_flatMap.mp distinct.2).1 child member)
          rcases split_of_sameBut below distinct.2 each with
            rfl | ⟨before, after, frames, inner, replaced, rfl, rfl, here, there⟩
          · exact .inl rfl
          · exact .inr ⟨⟨data, before, after⟩ :: frames, inner, replaced, rfl, rfl, here, there⟩

end Keys

end SessionReplay.Tree
