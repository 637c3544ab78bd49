import SessionReplay.Proofs.Wire.Player

/-!
Pages with an element around each text that is directly below the document. An edit has the same
effect on such a page as on the page without the elements when it leaves these texts alone. The
marks of the root's children, their names and whether they are texts, tell whether it does.
-/

namespace SessionReplay

namespace Wire

/-- The number of a text. -/
def Item.textId? : Item → Option NodeId
  | .text (.node id) _ _ => some id
  | _ => none

/-- What tells whether a child of the document gets an element around it, and which. -/
def Item.mark (item : Item) : Id × Option NodeId := (item.id, item.textId?)

theorem Item.id_of_textId? {item : Item} {id : NodeId} (text : item.textId? = some id) :
    item.id = .node id := by
  unfold textId? at text
  split at text
  case h_1 => rw [Option.some.inj text, Item.id]
  case h_2 => contradiction

/-- A text gets an element around it. -/
def shelter (child : Page) : Page :=
  match child.data.textId? with
  | some id => .node (.element (.wrapper id) .div ∅ ∅) [child]
  | none => child

/-- A page with an element around each text that is directly below the document. -/
def wrap (page : Page) : Page := .node page.data (page.children.map shelter)

def marks (page : Page) : List (Id × Option NodeId) := page.children.map (·.data.mark)

/-- The texts directly below the document of a page. -/
def bare (page : Page) : List NodeId := page.children.filterMap (·.data.textId?)

theorem mem_bare {page : Page} {id : NodeId} :
    id ∈ bare page ↔ (.node id, some id) ∈ marks page := by
  simp only [bare, marks, List.mem_filterMap, List.mem_map, Item.mark, Prod.mk.injEq]
  exact exists_congr fun child => and_congr_right fun _ =>
    ⟨fun text => ⟨Item.id_of_textId? text, text⟩, And.right⟩

theorem shelter_text {child : Page} {id : NodeId} (text : child.data.textId? = some id) :
    shelter child = .node (.element (.wrapper id) .div ∅ ∅) [child] := by
  rw [shelter, text]

theorem shelter_other {child : Page} (other : child.data.textId? = none) :
    shelter child = child := by
  rw [shelter, other]

/-- The name of a child with an element around it is that of a node only if there is none. -/
theorem id_shelter {child : Page} {id : NodeId} :
    (shelter child).data.id = .node id ↔ child.data.mark = (.node id, none) := by
  unfold Item.mark
  cases text : child.data.textId? with
  | none => simp [shelter_other text]
  | some other => simp [shelter_text text, Tree.data, Item.id]

theorem textId?_shelter (child : Page) : (shelter child).data.textId? = none := by
  cases text : child.data.textId? with
  | none => rw [shelter_other text, text]
  | some other => rw [shelter_text text]; rfl

/-- All nodes go by their own numbers. -/
def Numbered (page : Page) : Prop := ∀ key ∈ page.keys Item.id, ∃ id, key = .node id

/-- A page whose nodes go by their own numbers, each by another. -/
structure Proper (page : Page) : Prop where
  distinct : (page.keys Item.id).Nodup
  numbered : Numbered page

/-- No text that has an element around it is a child of the document. -/
theorem Proper.not_mem_marks_wrap {page : Page} (proper : Proper page) {id : NodeId}
    (text : id ∈ bare page) : .node id ∉ (marks (wrap page)).map Prod.fst := by
  intro listed
  simp only [marks, wrap, Tree.children, List.map_map, List.mem_map, Function.comp_apply] at listed
  obtain ⟨child, member, named⟩ := listed
  obtain ⟨other, otherMember, same⟩ := List.mem_filterMap.mp text
  have mark : child.data.mark = (.node id, none) := id_shelter.mp named
  have roots := Tree.child_keys_nodup proper.distinct
  have equal : child = other := List.inj_on_of_nodup_map roots member otherMember (by
    rw [Item.id_of_textId? same]
    exact congrArg Prod.fst mark)
  rw [equal, Item.mark, same] at mark
  simp at mark

theorem textId?_of_mem_marks_wrap {page : Page} {item : Item}
    (member : item.mark ∈ marks (wrap page)) : item.textId? = none := by
  simp only [marks, wrap, Tree.children, List.map_map, List.mem_map, Function.comp_apply] at member
  obtain ⟨child, -, same⟩ := member
  exact (congrArg Prod.snd same).symm.trans (textId?_shelter child)

section Changing

variable {change : Item → List Page → Option Page}
variable (keeps : ∀ item children changed, change item children = some changed →
  changed.data.mark = item.mark)

include keeps

theorem mark_changeAt {target : Id} {page result : Page}
    (done : page.changeAt Item.id target change = some result) :
    result.data.mark = page.data.mark := by
  cases page with
  | node item children =>
      rw [Tree.changeAt] at done
      split at done
      case isTrue => exact keeps item children result done
      case isFalse =>
        obtain ⟨changed, -, rfl⟩ := Option.map_eq_some_iff.mp done
        rfl

theorem marks_changeAtAll {target : Id} {pages results : List Page}
    (done : Tree.changeAtAll Item.id target change pages = some results) :
    results.map (·.data.mark) = pages.map (·.data.mark) := by
  induction pages generalizing results with
  | nil => simp [Tree.changeAtAll] at done
  | cons page pages induction =>
      rw [Tree.changeAtAll] at done
      split at done
      case h_1 changed first =>
        obtain rfl := Option.some.inj done
        rw [List.map_cons, List.map_cons, mark_changeAt keeps first]
      case h_2 =>
        obtain ⟨rest, later, rfl⟩ := Option.map_eq_some_iff.mp done
        rw [List.map_cons, List.map_cons, induction later]

/-- A change of a text finds it inside its element. -/
theorem changeAt_shelter (target : NodeId) (page : Page) :
    (shelter page).changeAt Item.id (.node target) change =
      (page.changeAt Item.id (.node target) change).map shelter := by
  have text : ∀ changed, page.changeAt Item.id (.node target) change = some changed →
      changed.data.textId? = page.data.textId? := fun changed done =>
    congrArg Prod.snd (mark_changeAt keeps done)
  cases kind : page.data.textId? with
  | none =>
      rw [shelter_other kind]
      cases done : page.changeAt Item.id (.node target) change with
      | none => rfl
      | some changed => rw [Option.map_some, shelter_other ((text changed done).trans kind)]
  | some id =>
      rw [shelter_text kind, Tree.changeAt, if_neg (by simp [Item.id])]
      cases done : page.changeAt Item.id (.node target) change with
      | none => simp [Tree.changeAtAll, done]
      | some changed =>
          simp [Tree.changeAtAll, done, shelter_text ((text changed done).trans kind)]

theorem changeAtAll_shelter (target : NodeId) (pages : List Page) :
    Tree.changeAtAll Item.id (.node target) change (pages.map shelter) =
      (Tree.changeAtAll Item.id (.node target) change pages).map (List.map shelter) := by
  induction pages with
  | nil => rfl
  | cons page pages induction =>
      simp only [List.map_cons, Tree.changeAtAll, changeAt_shelter keeps target page, induction]
      cases page.changeAt Item.id (.node target) change <;> simp [Function.comp_def]

/-- A change below the root goes on as before when texts get elements around them, and leaves the
marks of the root's children. -/
theorem changeAt_wrap {target : NodeId} {item : Item} {children : List Page} {result : Page}
    (below : item.id ≠ .node target)
    (done : (Tree.node item children).changeAt Item.id (.node target) change = some result) :
    (wrap (.node item children)).changeAt Item.id (.node target) change = some (wrap result) ∧
      marks result = marks (.node item children) := by
  rw [Tree.changeAt, if_neg below] at done
  obtain ⟨results, inner, rfl⟩ := Option.map_eq_some_iff.mp done
  constructor
  · change (Tree.node item (children.map shelter)).changeAt _ _ _ = _
    rw [Tree.changeAt, if_neg below, changeAtAll_shelter keeps, inner]
    rfl
  · exact marks_changeAtAll keeps inner

end Changing

/-- A revision that leaves a text a text. -/
def Steady (change : Item → Option Item) : Prop :=
  ∀ item changed, change item = some changed → changed.id = item.id → changed.mark = item.mark

theorem mark_of_removeChild {target : Id} (item : Item) (children : List Page) (changed : Page)
    (done : Tree.removeChild Item.id target item children = some changed) :
    changed.data.mark = item.mark := by
  rw [Tree.root_of_removeChild done]

theorem mark_of_insertChild {next : Option Id} {subtree : Page} (item : Item)
    (children : List Page) (changed : Page)
    (done : Tree.insertChild Item.id next subtree item children = some changed) :
    changed.data.mark = item.mark := by
  rw [Tree.root_of_insertChild done]

theorem mark_of_reviseData {change : Item → Option Item} (steady : Steady change) (item : Item)
    (children : List Page) (changed : Page)
    (done : Tree.reviseData Item.id change item children = some changed) :
    changed.data.mark = item.mark := by
  simp only [Tree.reviseData, Option.map_eq_some_iff, Option.filter_eq_some_iff,
    decide_eq_true_eq] at done
  obtain ⟨revised, ⟨became, same⟩, rfl⟩ := done
  exact steady item revised became same

/-- An edit of nodes with numbers that leaves these texts of the root alone. -/
inductive Mild (texts : List NodeId) (root : Id) : Edit Id Item → Prop
  | remove {parent target : NodeId} (spared : root = .node parent → target ∉ texts) :
      Mild texts root (.remove (.node parent) (.node target))
  | add {parent : NodeId} {next : Option NodeId} {subtree : Page} (numbered : Numbered subtree)
      (spared : root = .node parent →
        subtree.data.textId? = none ∧ ∀ id, next = some id → id ∉ texts) :
      Mild texts root (.add (.node parent) (next.map .node) subtree)
  | revise {target : NodeId} {change : Item → Option Item} (steady : Steady change) :
      Mild texts root (.revise (.node target) change)

theorem keys_wrap (page : Page) :
    ((wrap page).keys Item.id).Perm ((bare page).map .wrapper ++ page.keys Item.id) := by
  have below : ∀ children : List Page, ((children.map shelter).flatMap (Tree.keys Item.id)).Perm
      ((children.filterMap (·.data.textId?)).map .wrapper ++
        children.flatMap (Tree.keys Item.id)) := by
    intro children
    induction children with
    | nil => exact List.Perm.refl _
    | cons child children induction =>
        have counts := List.perm_iff_count.mp induction
        apply List.perm_iff_count.mpr
        intro key
        have rest := counts key
        simp only [List.map_cons, List.flatMap_cons, List.count_append] at rest ⊢
        cases text : child.data.textId? with
        | none =>
            simp only [shelter_other text, List.filterMap_cons, text]
            omega
        | some id =>
            simp only [shelter_text text, List.filterMap_cons, text, Tree.keys_node,
              List.flatMap_singleton, List.map_cons, List.count_cons, Item.id]
            omega
  cases page with
  | node item children =>
      change ((Tree.node item (children.map shelter)).keys Item.id).Perm _
      rw [Tree.keys_node, Tree.keys_node]
      exact ((below children).cons item.id).trans List.perm_middle.symm

theorem bare_nodup {page : Page} (distinct : (page.children.map (·.data.id)).Nodup) :
    (bare page).Nodup := by
  have named : ∀ children : List Page, ((children.filterMap (·.data.textId?)).map Id.node).Sublist
      (children.map (·.data.id)) := by
    intro children
    induction children with
    | nil => exact List.Sublist.refl _
    | cons child children induction =>
        cases text : child.data.textId? with
        | none =>
            simp only [List.filterMap_cons, text]
            exact induction.cons _
        | some id =>
            simp only [List.filterMap_cons, text, List.map_cons, Item.id_of_textId? text]
            exact induction.cons_cons _
  exact ((named page.children).nodup distinct).of_map _

/-- What is new among the nodes of a page is new among the page's with its elements around texts. -/
theorem fresh_wrap {subtree page : Page} (numbered : Numbered subtree)
    (pageNumbered : Numbered page)
    (fresh : (subtree.keys Item.id ++ page.keys Item.id).Nodup) :
    (subtree.keys Item.id ++ (wrap page).keys Item.id).Nodup := by
  have roots := Tree.child_keys_nodup (List.nodup_append.mp fresh).2.1
  have regrouped : (subtree.keys Item.id ++ (wrap page).keys Item.id).Perm
      ((bare page).map .wrapper ++ (subtree.keys Item.id ++ page.keys Item.id)) :=
    ((keys_wrap page).append_left _).trans (List.perm_append_comm_assoc _ _ _)
  refine regrouped.nodup_iff.mpr (List.nodup_append.mpr ⟨?_, fresh, ?_⟩)
  · exact (bare_nodup roots).map fun _ _ same => Id.wrapper.inj same
  · rintro key wrapper other listed rfl
    obtain ⟨text, -, rfl⟩ := List.mem_map.mp wrapper
    rcases List.mem_append.mp listed with member | member
    · obtain ⟨id, same⟩ := numbered _ member
      contradiction
    · obtain ⟨id, same⟩ := pageNumbered _ member
      contradiction

/-- A child that is not one of the texts has the same name with an element around each text. -/
theorem id_shelter_iff {children : List Page} {child : Page} (member : child ∈ children)
    {id : NodeId} (spared : id ∉ children.filterMap (·.data.textId?)) :
    (shelter child).data.id = .node id ↔ child.data.id = .node id := by
  rw [id_shelter, Item.mark]
  cases text : child.data.textId? with
  | none => simp
  | some other =>
      have listed : other ∈ children.filterMap (·.data.textId?) :=
        List.mem_filterMap.mpr ⟨child, member, text⟩
      rw [Item.id_of_textId? text]
      constructor
      · simp
      · rintro same
        cases same
        exact absurd listed spared

/-- A mild edit has the same effect when each text below the document has an element around it. -/
theorem wrap_edit {texts : List NodeId} {change : Edit Id Item} {page result : Page}
    (numbered : Numbered page) (covers : ∀ id ∈ bare page, id ∈ texts)
    (mild : Mild texts page.data.id change) (done : page.edit Item.id change = some result) :
    (wrap page).edit Item.id change = some (wrap result) := by
  obtain ⟨item, children⟩ := page
  cases mild with
  | @remove parent target spared =>
      by_cases root : item.id = .node parent
      · have other : target ∉ bare (.node item children) := mt (covers target) (spared root)
        rw [Tree.edit, Tree.changeAt_root root, Tree.removeChild,
          Option.ite_none_right_eq_some] at done
        obtain ⟨present, became⟩ := done
        obtain ⟨child, member, named⟩ := List.mem_map.mp present
        have still : .node target ∈ (children.map shelter).map (·.data.id) :=
          List.mem_map.mpr ⟨shelter child, List.mem_map_of_mem member,
            (id_shelter_iff member other).mpr named⟩
        have kept : (children.map shelter).filter (fun child => child.data.id ≠ .node target) =
            (children.filter fun child => child.data.id ≠ .node target).map shelter := by
          rw [List.filter_map]
          refine congrArg _ (List.filter_congr fun child member => ?_)
          simp [id_shelter_iff member other]
        change (Tree.node item (children.map shelter)).edit Item.id _ = _
        rw [Tree.edit, Tree.changeAt_root root, Tree.removeChild, if_pos still, kept,
          ← Option.some.inj became]
        rfl
      · exact (changeAt_wrap mark_of_removeChild root done).1
  | @add parent next subtree subtreeNumbered spared =>
      rw [Tree.edit, Option.ite_none_right_eq_some] at done
      obtain ⟨fresh, inserted⟩ := done
      rw [Tree.edit, if_pos (fresh_wrap subtreeNumbered numbered fresh)]
      by_cases root : item.id = .node parent
      · obtain ⟨element, others⟩ := spared root
        have name : ∀ child ∈ children, some (shelter child).data.id = next.map Id.node ↔
            some child.data.id = next.map Id.node := by
          intro child member
          cases next with
          | none => simp
          | some id =>
              simp only [Option.map_some, Option.some.injEq]
              exact id_shelter_iff member (mt (covers id) (others id rfl))
        rw [Tree.changeAt_root root] at inserted
        obtain ⟨front, back, rfl, rfl, passed, found⟩ := Tree.split_of_insertChild inserted
        change (Tree.node item ((front ++ back).map shelter)).changeAt Item.id _ _ = _
        rw [Tree.changeAt_root root, List.map_append, Tree.insertChild_split]
        · simp [wrap, Tree.data, Tree.children, shelter_other element]
        · intro child member
          obtain ⟨former, inside, rfl⟩ := List.mem_map.mp member
          exact mt (name former (List.mem_append_left _ inside)).mp (passed former inside)
        · cases back with
          | nil => exact found
          | cons first back => exact (name first (by simp)).mpr found
      · exact (changeAt_wrap mark_of_insertChild root inserted).1
  | @revise target change steady =>
      by_cases root : item.id = .node target
      · rw [Tree.edit, Tree.changeAt_root root] at done
        change (Tree.node item (children.map shelter)).edit Item.id _ = _
        rw [Tree.edit, Tree.changeAt_root root]
        simp only [Tree.reviseData, Option.map_eq_some_iff] at done ⊢
        obtain ⟨revised, became, rfl⟩ := done
        exact ⟨revised, became, rfl⟩
      · exact (changeAt_wrap (mark_of_reviseData steady) root done).1

theorem marks_remove {parent target : NodeId} {page result : Page}
    (done : page.edit Item.id (.remove (.node parent) (.node target)) = some result) :
    (marks result).Sublist (marks page) := by
  obtain ⟨item, children⟩ := page
  by_cases root : item.id = .node parent
  · rw [Tree.edit, Tree.changeAt_root root, Tree.removeChild,
      Option.ite_none_right_eq_some] at done
    rw [← Option.some.inj done.2]
    exact List.filter_sublist.map _
  · rw [(changeAt_wrap mark_of_removeChild root done).2]

/-- An edit that takes nothing away, and leaves texts texts. -/
inductive Growing : Edit Id Item → Prop
  | add (parent : NodeId) (next : Option Id) (subtree : Page) :
      Growing (.add (.node parent) next subtree)
  | revise (target : NodeId) {change : Item → Option Item} (steady : Steady change) :
      Growing (.revise (.node target) change)

theorem marks_grow {change : Edit Id Item} (growing : Growing change) {page result : Page}
    (done : page.edit Item.id change = some result) : (marks page).Sublist (marks result) := by
  obtain ⟨item, children⟩ := page
  cases growing with
  | add parent next subtree =>
      rw [Tree.edit, Option.ite_none_right_eq_some] at done
      by_cases root : item.id = .node parent
      · rw [Tree.changeAt_root root] at done
        obtain ⟨front, back, rfl, rfl, -, -⟩ := Tree.split_of_insertChild done.2
        exact ((List.sublist_cons_self subtree back).append_left front).map _
      · rw [(changeAt_wrap mark_of_insertChild root done.2).2]
  | revise target steady =>
      by_cases root : item.id = .node target
      · rw [Tree.edit, Tree.changeAt_root root] at done
        obtain ⟨revised, -, rfl⟩ := Option.map_eq_some_iff.mp done
        exact List.Sublist.refl _
      · rw [(changeAt_wrap (mark_of_reviseData steady) root done).2]

theorem marks_play {changes : List (Edit Id Item)} (growing : ∀ change ∈ changes, Growing change)
    {page result : Page} (done : page.play Item.id changes = some result) :
    (marks page).Sublist (marks result) := by
  induction changes generalizing page with
  | nil =>
      cases done
      exact List.Sublist.refl _
  | cons change changes induction =>
      obtain ⟨first, rest⟩ := List.forall_mem_cons.mp growing
      obtain ⟨changed, edited, played⟩ := Option.bind_eq_some_iff.mp done
      exact (marks_grow first edited).trans (induction rest played)

/-- What is removed from the root in the course of removals is a child of it at the beginning. -/
theorem removed_mem_marks {changes : List (Edit Id Item)}
    (removals : ∀ change ∈ changes, ∃ parent target : NodeId,
      change = .remove (.node parent) (.node target)) {page result : Page}
    (done : page.play Item.id changes = some result) {root target : Id}
    (top : page.data.id = root) (member : .remove root target ∈ changes) :
    target ∈ (marks page).map Prod.fst := by
  induction changes generalizing page with
  | nil => contradiction
  | cons change changes induction =>
      obtain ⟨⟨parent, gone, rfl⟩, rest⟩ := List.forall_mem_cons.mp removals
      obtain ⟨changed, edited, played⟩ := Option.bind_eq_some_iff.mp done
      rcases List.mem_cons.mp member with first | later
      · obtain ⟨item, children⟩ := page
        cases first
        have here : item.id = .node parent := top
        rw [Tree.edit, Tree.changeAt_root here, Tree.removeChild,
          Option.ite_none_right_eq_some] at edited
        simpa [marks, Item.mark, Tree.children] using edited.1
      · have still := (Tree.root_of_edit edited).trans top
        exact ((marks_remove edited).map Prod.fst).subset (induction rest played still later)

/-- What comes to the root in the course of additions is a child of it at the end, and so is what
it is put in front of. -/
theorem added_mem_marks {changes : List (Edit Id Item)}
    (growing : ∀ change ∈ changes, Growing change) {page result : Page}
    (done : page.play Item.id changes = some result) {root : Id} {next : Option Id}
    {subtree : Page} (top : page.data.id = root) (member : .add root next subtree ∈ changes) :
    subtree.data.mark ∈ marks result ∧
      ∀ key, next = some key → key ∈ (marks result).map Prod.fst := by
  induction changes generalizing page with
  | nil => contradiction
  | cons change changes induction =>
      obtain ⟨-, rest⟩ := List.forall_mem_cons.mp growing
      obtain ⟨changed, edited, played⟩ := Option.bind_eq_some_iff.mp done
      rcases List.mem_cons.mp member with first | later
      · obtain ⟨item, children⟩ := page
        subst first
        have kept := marks_play rest played
        have here : item.id = root := top
        rw [Tree.edit, Tree.changeAt_root here, Option.ite_none_right_eq_some] at edited
        obtain ⟨front, back, rfl, rfl, -, found⟩ := Tree.split_of_insertChild edited.2
        refine ⟨kept.subset (List.mem_map_of_mem (by simp [Tree.children])), ?_⟩
        rintro key rfl
        obtain ⟨sibling, head, rfl⟩ := Option.map_eq_some_iff.mp found
        have listed : sibling ∈ front ++ subtree :: back :=
          List.mem_append_right _ (List.mem_cons_of_mem _ (List.mem_of_head? head))
        exact (kept.map Prod.fst).subset (List.mem_map_of_mem (List.mem_map_of_mem listed))
      · exact induction rest played ((Tree.root_of_edit edited).trans top) later

theorem Proper.edit {texts : List NodeId} {root : Id} {change : Edit Id Item} {page result : Page}
    (proper : Proper page) (mild : Mild texts root change)
    (done : page.edit Item.id change = some result) : Proper result := by
  obtain ⟨distinct, origin⟩ := Tree.keys_edit proper.distinct done
  refine ⟨distinct, fun key member => ?_⟩
  rcases origin key member with named | before
  · cases mild with
    | remove => exact ⟨_, List.mem_singleton.mp named⟩
    | add numbered =>
        rcases List.mem_cons.mp named with rfl | brought
        · exact ⟨_, rfl⟩
        · exact numbered key brought
    | revise => exact ⟨_, List.mem_singleton.mp named⟩
  · exact proper.numbered key before

section Playing

variable {changes : List (Edit Id Item)} {page result : Page}

theorem bare_subset {texts : List NodeId} {other : Page} (marked : marks page ⊆ marks other)
    (covers : ∀ id ∈ bare other, id ∈ texts) : ∀ id ∈ bare page, id ∈ texts :=
  fun id member => covers id (mem_bare.mpr (marked (mem_bare.mp member)))

theorem wrap_play_removals (texts : List NodeId) (proper : Proper page)
    (removals : ∀ change ∈ changes, ∃ parent target : NodeId,
      change = .remove (.node parent) (.node target))
    (mild : ∀ change ∈ changes, Mild texts page.data.id change)
    (covers : ∀ id ∈ bare page, id ∈ texts) (done : page.play Item.id changes = some result) :
    (wrap page).play Item.id changes = some (wrap result) ∧ Proper result := by
  induction changes generalizing page with
  | nil =>
      cases done
      exact ⟨rfl, proper⟩
  | cons change changes induction =>
      obtain ⟨⟨parent, target, rfl⟩, others⟩ := List.forall_mem_cons.mp removals
      obtain ⟨first, rest⟩ := List.forall_mem_cons.mp mild
      obtain ⟨changed, edited, played⟩ := Option.bind_eq_some_iff.mp done
      rw [Tree.play, wrap_edit proper.numbered covers first edited]
      rw [← Tree.root_of_edit edited] at rest
      exact induction (proper.edit first edited) others rest
        (bare_subset (marks_remove edited).subset covers) played

theorem wrap_play_growing (texts : List NodeId) (proper : Proper page)
    (growing : ∀ change ∈ changes, Growing change)
    (mild : ∀ change ∈ changes, Mild texts page.data.id change)
    (covers : ∀ id ∈ bare result, id ∈ texts) (done : page.play Item.id changes = some result) :
    (wrap page).play Item.id changes = some (wrap result) := by
  induction changes generalizing page with
  | nil =>
      cases done
      rfl
  | cons change changes induction =>
      have covered := bare_subset (marks_play growing done).subset covers
      obtain ⟨-, others⟩ := List.forall_mem_cons.mp growing
      obtain ⟨first, rest⟩ := List.forall_mem_cons.mp mild
      obtain ⟨changed, edited, played⟩ := Option.bind_eq_some_iff.mp done
      rw [Tree.play, wrap_edit proper.numbered covered first edited]
      rw [← Tree.root_of_edit edited] at rest
      exact induction (proper.edit first edited) others rest played

end Playing

theorem steady_setText (value : String) : Steady (Item.setText value) := by
  intro item changed set _
  cases item with
  | text id content isStyle =>
      cases set
      cases id <;> rfl
  | document id => contradiction
  | element id tag attributes style => contradiction

theorem steady_setAttributes (values : Std.ExtTreeMap String AttributeValue) :
    Steady (Item.setAttributes values) := by
  intro item changed set _
  cases item with
  | element id tag attributes style =>
      cases set
      rfl
  | document id => contradiction
  | text id content isStyle => contradiction

end Wire

end SessionReplay
