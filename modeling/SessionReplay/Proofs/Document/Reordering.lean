import SessionReplay.Proofs.Document.Commuting
import SessionReplay.Proofs.Document.Remaining
import SessionReplay.Proofs.Tree.Pruning

/-!
The orders in which the records of a comparison can be taken. Two removals can change places because
neither takes out the parent of the other, two additions below different nodes because neither
brings the other's, and two changes of contents because they are of different nodes. The main
statement is that all orders that keep the additions below each node in theirs lead to the same
replica.
-/

namespace SessionReplay.Document

section Removing

/-- A removal is made, and these nodes are still there. -/
def Removes (left : List NodeId) (record : Record) (tree result : Tree Node) : Prop :=
  (ids tree).Nodup ∧ tree.edit Node.id record.edit = some result ∧ left ⊆ ids result

variable {left : List NodeId} {records : List Record}

theorem steps_of_play (removals : ∀ record ∈ records, act record = .remove)
    {tree result : Tree Node} (distinct : (ids tree).Nodup)
    (done : tree.play Node.id (records.map Record.edit) = some result) (there : left ⊆ ids result) :
    Steps (Removes left) records tree result := by
  induction records generalizing tree with
  | nil =>
      cases done
      exact .nil _
  | cons record records induction =>
      obtain ⟨here, others⟩ := List.forall_mem_cons.mp removals
      obtain ⟨changed, first, rest⟩ := Option.bind_eq_some_iff.mp done
      have fewer : (ids result).Sublist (ids changed) := by
        apply Tree.keys_play_remove _ rest
        intro edit member
        obtain ⟨record, listed, rfl⟩ := List.mem_map.mp member
        obtain ⟨parent, id, rfl⟩ := eq_remove (others record listed)
        exact ⟨parent, id, rfl⟩
      exact .cons ⟨distinct, first, fun id member => fewer.subset (there member)⟩
        (induction others (Tree.keys_edit distinct first).1 rest)

theorem play_of_steps {tree result : Tree Node} (taken : Steps (Removes left) records tree result) :
    tree.play Node.id (records.map Record.edit) = some result := by
  induction taken with
  | nil => rfl
  | cons first _ induction =>
      rw [List.map_cons, Tree.play, first.2.1]
      exact induction

theorem swaps_removals {first second : Record} (firstKind : act first = .remove)
    (secondKind : act second = .remove) (there : first.anchor ∈ left) :
    Swaps (Removes left) first second := by
  obtain ⟨parent, id, rfl⟩ := eq_remove firstKind
  obtain ⟨otherParent, otherId, rfl⟩ := eq_remove secondKind
  intro before middle after one other
  obtain ⟨distinct, first, -⟩ := one
  obtain ⟨-, second, kept⟩ := other
  obtain ⟨instead, now, later⟩ := Tree.edit_swap distinct first second (kept there)
  have fewer : (ids after).Sublist (ids instead) := Tree.keys_remove later
  exact ⟨instead, ⟨distinct, now, fun id member => fewer.subset (kept member)⟩,
    (Tree.keys_edit distinct now).1, later, kept⟩

/-- Removals take out the subtrees that they are about, each of them once. -/
theorem prune_of_removals (removals : ∀ record ∈ records, act record = .remove)
    {tree result : Tree Node} (distinct : (ids tree).Nodup)
    (done : tree.play Node.id (records.map Record.edit) = some result) :
    result = tree.prune Node.id (records.map Record.target) ∧
      (records.map Record.target).Nodup ∧
      ∀ record ∈ records, Tree.Holds Node.id tree record.anchor record.target := by
  have edits : records.map Record.edit =
      (records.map fun record => (record.anchor, record.target)).map
        fun pair => .remove pair.1 pair.2 := by
    rw [List.map_map]
    apply List.map_congr_left
    intro record member
    obtain ⟨parent, id, rfl⟩ := eq_remove (removals record member)
    rfl
  rw [edits] at done
  have facts := Tree.prune_of_play distinct done
  rw [List.map_map] at facts
  exact ⟨facts.1, facts.2.1, fun record member => facts.2.2 _ (List.mem_map_of_mem member)⟩

end Removing

/-- The subtrees that are added are new to what is left by the removals. -/
theorem fresh_of_steps {records : List Record} (additions : ∀ record ∈ records, act record = .add)
    {entries changed : Replica.Entries} (taken : Steps Replica.Takes records entries changed)
    {parent : NodeId} {next : Option NodeId} {subtree : Tree Node}
    (member : .add parent next subtree ∈ records) : ∀ id ∈ ids subtree, id ∉ entries := by
  induction taken with
  | nil => contradiction
  | @cons record records before middle after first _ induction =>
      obtain ⟨here, others⟩ := List.forall_mem_cons.mp additions
      rcases List.mem_cons.mp member with same | later
      · rw [← same] at first
        exact (Replica.applyAdd_accepted_iff.mp (congrArg Prod.snd first)).1.fresh
      · obtain ⟨otherParent, otherNext, other, rfl⟩ := eq_add here
        intro id inside there
        exact induction others later id inside ((Replica.mem_of_add first).mpr (.inr there))

/-- The records in another order: first the removals in any order, then the additions, where those
below one node keep their order, then the new contents in any order. -/
structure Rearranged (records removes adds contents : List Record) : Prop where
  removes : removes.Perm (records.filter (·.isRemove))
  additions : ∀ record ∈ adds, record.isAdd
  adds : ∀ parent, adds.filter (·.parent? = some parent) =
    (records.filter (·.isAdd)).filter (·.parent? = some parent)
  contents : contents.Perm (records.filter (·.isContent))

/-- No record is about a node that another one brings or takes away, and no two change one node. -/
structure Separate (previous : Tree Node) (records : List Record) : Prop where
  removed : (records.filter (·.isRemove)).Pairwise fun one other =>
    ∀ first second, Tree.Inside first previous → Tree.Inside second previous →
      first.data.id = one.target → second.data.id = other.target →
      ∀ id ∈ ids first, id ∉ ids second
  added : ∀ parent next subtree otherParent otherNext other,
    .add parent next subtree ∈ records → .add otherParent otherNext other ∈ records →
    parent ∉ ids other
  once : ((records.filter (·.isContent)).map Record.target).Nodup
  kept : ∀ record ∈ records, record.isContent → ∀ parent id part,
    .remove parent id ∈ records → Tree.Inside part previous → part.data.id = id →
    record.target ∉ ids part
  known : ∀ record ∈ records, record.isContent → ∀ parent next subtree,
    .add parent next subtree ∈ records → record.target ∉ ids subtree

theorem isContent_eq (record : Record) :
    record.isContent = decide (act record ∈ [Act.text, Act.attributes]) := by
  cases record <;> rfl

section Order

variable {previous current : Tree Node} {records : List Record}

/-- The records of a comparison of two documents, and what taking them leads through. -/
structure Course (previous current : Tree Node) (records : List Record) (middle : Replica.Entries)
    (result : Tree Node) : Prop where
  removes : records.filter (·.isRemove) = (changesAt previous current).removes
  adds : records.filter (·.isAdd) = (changesAt previous current).adds
  contents : records.filter (·.isContent) = (changesAt previous current).contents
  removed : previous.play Node.id ((changesAt previous current).removes.map Record.edit) =
    some (remaining previous current)
  added : Steps Replica.Takes (changesAt previous current).adds
    (Replica.ofTree (remaining previous current)).entries middle
  changed : Steps Replica.Takes (changesAt previous current).contents middle
    (Replica.ofTree result).entries
  root : result.data.id = previous.data.id
  taken : (Replica.ofTree previous).apply records = (Replica.ofTree result, none)

theorem exists_course (compared : changes previous current = .ok records)
    (previousDistinct : (ids previous).Nodup) (currentDistinct : (ids current).Nodup) :
    ∃ middle result, Course previous current records middle result := by
  obtain ⟨result, played⟩ := played_changes compared previousDistinct currentDistinct
  obtain ⟨same, shape, listed⟩ := changes_ok compared
  have sorted := sorted_changesAt previous current
  have removed := play_remaining same previousDistinct
  have grouped : records = (changesAt previous current).removes ++
      ((changesAt previous current).adds ++ (changesAt previous current).contents) := by
    rw [← listed, Changes.records, Changes.contents]
    simp only [List.append_assoc]
  have rest := played
  rw [grouped, List.map_append, Tree.play_append, removed, Option.bind_some] at rest
  have left : (ids (remaining previous current)).Nodup := Tree.keys_play previousDistinct removed
  obtain ⟨-, taken⟩ := Replica.apply_iff.mp (Replica.apply_of_play left rest)
  obtain ⟨middle, added, changed⟩ := steps_append_iff.mp taken
  refine ⟨middle, result, ?_, ?_, ?_, removed, added, changed, Tree.root_of_play played,
    Replica.apply_of_play previousDistinct played⟩
  · rw [← listed, sorted.filter isRemove_eq]
    simp
  · rw [← listed, sorted.filter isAdd_eq]
    simp
  · rw [← listed, sorted.filter isContent_eq]
    simp [Changes.contents]

variable {middle : Replica.Entries} {result : Tree Node}

theorem Course.anchored (course : Course previous current records middle result)
    (same : previous.data.id = current.data.id) {record : Record} (member : record ∈ records) :
    record.anchor ∈ ids (remaining previous current) := by
  have contents : record.isContent → record.anchor ∈ ids (remaining previous current) := by
    intro kind
    have listed : record ∈ records.filter (·.isContent) := List.mem_filter.mpr ⟨member, kind⟩
    rw [course.contents] at listed
    rcases List.mem_append.mp listed with text | attributes
    · exact anchor_revising revising_texts (fun _ => List.subset_append_left _ _) same text
    · exact anchor_revising revising_attributes (fun _ => List.subset_append_right _ _) same
        attributes
  cases record with
  | remove parent id =>
      have listed := List.mem_filter.mpr ⟨member, (rfl : (Record.remove parent id).isRemove = true)⟩
      rw [course.removes] at listed
      exact anchor_moving moving_removes same listed
  | add parent next subtree =>
      have listed :=
        List.mem_filter.mpr ⟨member, (rfl : (Record.add parent next subtree).isAdd = true)⟩
      rw [course.adds] at listed
      exact anchor_moving moving_adds same listed
  | text => exact contents rfl
  | attributes => exact contents rfl

/-- No addition brings a node that another record finds. -/
theorem Course.not_brought (course : Course previous current records middle result)
    (same : previous.data.id = current.data.id) (distinct : (ids previous).Nodup) {record : Record}
    (member : record ∈ records) {parent : NodeId} {next : Option NodeId} {subtree : Tree Node}
    (added : .add parent next subtree ∈ records) : record.anchor ∉ ids subtree := by
  intro inside
  have left : (ids (remaining previous current)).Nodup := Tree.keys_play distinct course.removed
  have listed := List.mem_filter.mpr ⟨added, (rfl : (Record.add parent next subtree).isAdd = true)⟩
  rw [course.adds] at listed
  have sorted := sorted_changesAt previous current
  exact fresh_of_steps sorted.adds course.added listed _ inside
    ((Replica.mem_ofTree left).mpr (course.anchored same member))

theorem Course.rearranged_removes (course : Course previous current records middle result)
    (same : previous.data.id = current.data.id) (distinct : (ids previous).Nodup)
    {removes : List Record} (permuted : removes.Perm (records.filter (·.isRemove))) :
    (Replica.ofTree previous).apply removes =
      (Replica.ofTree (remaining previous current), none) := by
  have sorted := sorted_changesAt previous current
  have taken := steps_of_play sorted.removes distinct course.removed (List.Subset.refl _)
  have once := (prune_of_removals sorted.removes distinct course.removed).2.1
  rw [course.removes] at permuted
  have swapped := taken.interleave (fun first firstHere second secondHere _ =>
    swaps_removals (sorted.removes first firstHere) (sorted.removes second secondHere)
      (anchor_moving moving_removes same firstHere)) (filter_of_perm permuted once)
  exact Replica.apply_of_play distinct (play_of_steps swapped)

theorem Course.rearranged_adds (course : Course previous current records middle result)
    (same : previous.data.id = current.data.id) (distinct : (ids previous).Nodup)
    {adds : List Record} (additions : ∀ record ∈ adds, record.isAdd)
    (alike : ∀ parent, adds.filter (·.parent? = some parent) =
      (records.filter (·.isAdd)).filter (·.parent? = some parent)) :
    Steps Replica.Takes adds (Replica.ofTree (remaining previous current)).entries middle := by
  have sorted := sorted_changesAt previous current
  have known : ∀ record ∈ (changesAt previous current).adds, record ∈ records := by
    rw [← course.adds]
    exact fun record member => List.mem_of_mem_filter member
  have swaps : ∀ first ∈ (changesAt previous current).adds,
      ∀ second ∈ (changesAt previous current).adds, first.parent? ≠ second.parent? →
      Swaps Replica.Takes first second := by
    intro first firstHere second secondHere unlike
    obtain ⟨parent, next, subtree, rfl⟩ := eq_add (sorted.adds first firstHere)
    obtain ⟨otherParent, otherNext, other, rfl⟩ := eq_add (sorted.adds second secondHere)
    exact Replica.swaps_adds (fun equal => unlike (congrArg some equal))
      (course.not_brought same distinct (known _ firstHere) (known _ secondHere))
      (course.not_brought same distinct (known _ secondHere) (known _ firstHere))
  apply course.added.interleave swaps
  intro name
  cases name with
  | some parent => rw [alike parent, course.adds]
  | none =>
      have placed : ∀ {list : List Record}, (∀ record ∈ list, record.isAdd) →
          list.filter (·.parent? = none) = [] := by
        intro list all
        apply List.filter_eq_nil_iff.mpr
        intro record member
        have kind := all record member
        cases record <;> simp_all [Record.isAdd, Record.parent?]
      have emitted : ∀ record ∈ (changesAt previous current).adds, record.isAdd := by
        rw [← course.adds]
        exact fun record member => (List.mem_filter.mp member).2
      rw [placed additions, placed emitted]

theorem Course.rearranged_contents (course : Course previous current records middle result)
    (distinct : (ids current).Nodup) {contents : List Record}
    (permuted : contents.Perm (records.filter (·.isContent))) :
    Steps Replica.Takes contents middle (Replica.ofTree result).entries := by
  rw [course.contents] at permuted
  have still : ∀ record ∈ (changesAt previous current).contents, record.parent? = none := by
    rw [← course.contents]
    intro record member
    have kind := (List.mem_filter.mp member).2
    cases record <;> simp_all [Record.isContent, Record.isText, Record.isAttributes, Record.parent?]
  have swaps : ∀ first ∈ (changesAt previous current).contents,
      ∀ second ∈ (changesAt previous current).contents, first.target ≠ second.target →
      Swaps Replica.Takes first second := fun first firstHere second secondHere unlike =>
    Replica.swaps_contents (still first firstHere) (still second secondHere) unlike
  exact course.changed.interleave swaps (filter_of_perm permuted (once_contents distinct))

/-- Records that are rearranged are taken, and lead to the same replica. -/
theorem Course.taken_rearranged (course : Course previous current records middle result)
    (same : previous.data.id = current.data.id) (previousDistinct : (ids previous).Nodup)
    (currentDistinct : (ids current).Nodup) {removes adds contents : List Record}
    (rearranged : Rearranged records removes adds contents) :
    (Replica.ofTree previous).apply (removes ++ adds ++ contents) =
      (Replica.ofTree result, none) := by
  have removed := course.rearranged_removes same previousDistinct rearranged.removes
  have added := course.rearranged_adds same previousDistinct rearranged.additions rearranged.adds
  have changed := course.rearranged_contents currentDistinct rearranged.contents
  have first := (Replica.apply_iff.mp removed).2
  exact Replica.apply_iff.mpr ⟨course.root,
    steps_append_iff.mpr ⟨_, steps_append_iff.mpr ⟨_, first, added⟩, changed⟩⟩

/-- A removal takes out a child, and its subtree with it. -/
theorem Course.removal (course : Course previous current records middle result)
    (same : previous.data.id = current.data.id) (distinct : (ids previous).Nodup) {record : Record}
    (member : record ∈ records.filter (·.isRemove)) :
    Tree.Holds Node.id previous record.anchor record.target ∧
      record.anchor ∈ ids (remaining previous current) ∧
      ∀ part, Tree.Inside part previous → part.data.id = record.target → part ≠ previous ∧
        ∀ id ∈ ids part, id ∉ ids (remaining previous current) := by
  have anchored := course.anchored same (List.mem_of_mem_filter member)
  have sorted := sorted_changesAt previous current
  obtain ⟨pruned, -, holds⟩ := prune_of_removals sorted.removes distinct course.removed
  rw [course.removes] at member
  refine ⟨holds record member, anchored, fun part inside root => ?_⟩
  have below : part ≠ previous := by
    rintro rfl
    exact (holds record member).below distinct root.symm
  refine ⟨below, fun id listed => ?_⟩
  rw [pruned]
  exact Tree.not_left_of_prune inside distinct (root ▸ List.mem_map_of_mem member) below listed

theorem Course.apart (course : Course previous current records middle result)
    (same : previous.data.id = current.data.id) (distinct : (ids previous).Nodup)
    {one other : Record} (oneMember : one ∈ records.filter (·.isRemove))
    (otherMember : other ∈ records.filter (·.isRemove)) (unlike : one.target ≠ other.target)
    {first second : Tree Node} (firstInside : Tree.Inside first previous)
    (secondInside : Tree.Inside second previous) (firstRoot : first.data.id = one.target)
    (secondRoot : second.data.id = other.target) : ¬Tree.Inside first second := by
  obtain ⟨holds, left, -⟩ := course.removal same distinct oneMember
  have taken := ((course.removal same distinct otherMember).2.2 second secondInside secondRoot).2
  rw [← firstRoot] at holds
  apply holds.outside distinct firstInside secondInside
  · rw [firstRoot, secondRoot]
    exact unlike
  · exact fun listed => taken _ listed left

theorem Course.separate (course : Course previous current records middle result)
    (same : previous.data.id = current.data.id) (previousDistinct : (ids previous).Nodup)
    (currentDistinct : (ids current).Nodup) : Separate previous records where
  removed := by
    have sorted := sorted_changesAt previous current
    have once := (prune_of_removals sorted.removes previousDistinct course.removed).2.1
    rw [← course.removes] at once
    apply (List.pairwise_map.mp once).imp_of_mem
    intro one other oneMember otherMember unlike first second firstInside secondInside firstRoot
      secondRoot id inFirst inSecond
    rcases firstInside.nested secondInside previousDistinct inFirst inSecond with inner | outer
    · exact course.apart same previousDistinct oneMember otherMember unlike firstInside secondInside
        firstRoot secondRoot inner
    · exact course.apart same previousDistinct otherMember oneMember unlike.symm secondInside
        firstInside secondRoot firstRoot outer
  added parent next subtree otherParent otherNext other member otherMember :=
    course.not_brought same previousDistinct member otherMember
  once := by
    rw [course.contents]
    exact once_contents currentDistinct
  kept record member kind parent id part removed inside root listed := by
    have removal := List.mem_filter.mpr ⟨removed, (rfl : (Record.remove parent id).isRemove = true)⟩
    have taken := ((course.removal same previousDistinct removal).2.2 part inside root).2
    have anchored := course.anchored same member
    cases record with
    | text => exact taken _ listed anchored
    | attributes => exact taken _ listed anchored
    | add => contradiction
    | remove => contradiction
  known record member kind parent next subtree added := by
    have apart := course.not_brought same previousDistinct member added
    cases record with
    | text => exact apart
    | attributes => exact apart
    | add => contradiction
    | remove => contradiction

end Order

/-- No two records of a comparison are about the same nodes, and so they can be taken in any order
that makes the removals first and the changes of contents last, and that keeps the additions below
each node in theirs. -/
theorem apply_rearranged {previous current : Tree Node} {records : List Record}
    (compared : changes previous current = .ok records) (previousDistinct : (ids previous).Nodup)
    (currentDistinct : (ids current).Nodup) :
    Separate previous records ∧
      ∃ replica, (Replica.ofTree previous).apply records = (replica, none) ∧
        ∀ removes adds contents, Rearranged records removes adds contents →
          (Replica.ofTree previous).apply (removes ++ adds ++ contents) = (replica, none) := by
  obtain ⟨middle, result, course⟩ := exists_course compared previousDistinct currentDistinct
  have same := (changes_ok compared).1
  exact ⟨course.separate same previousDistinct currentDistinct, Replica.ofTree result, course.taken,
    fun removes adds contents rearranged =>
      course.taken_rearranged same previousDistinct currentDistinct rearranged⟩

/-- An item with nothing in it. -/
def item (id : NodeId) : Tree Node := .node { id, kind := .element { tag := .div } } []

/-- A document of two lists with a text behind them. -/
def twoLists (first second : List NodeId) (content : String) : Tree Node :=
  .node { id := ⟨1⟩, kind := .document }
    [.node { id := ⟨2⟩, kind := .element { tag := .div } } (first.map item),
     .node { id := ⟨3⟩, kind := .element { tag := .div } } (second.map item),
     .node { id := ⟨4⟩, kind := .text content false } []]

/-- Each of the two lists gives its last item to the other one, the second list first. -/
theorem apply_rearranged_lists :
    changes (twoLists [⟨5⟩, ⟨6⟩] [⟨7⟩, ⟨8⟩] "a") (twoLists [⟨5⟩, ⟨8⟩] [⟨7⟩, ⟨6⟩] "b") =
        .ok [.remove ⟨2⟩ ⟨6⟩, .remove ⟨3⟩ ⟨8⟩, .add ⟨2⟩ none (item ⟨8⟩), .add ⟨3⟩ none (item ⟨6⟩),
          .text ⟨4⟩ "b" false] ∧
      ∃ replica,
        (Replica.ofTree (twoLists [⟨5⟩, ⟨6⟩] [⟨7⟩, ⟨8⟩] "a")).apply
            [.remove ⟨2⟩ ⟨6⟩, .remove ⟨3⟩ ⟨8⟩, .add ⟨2⟩ none (item ⟨8⟩), .add ⟨3⟩ none (item ⟨6⟩),
              .text ⟨4⟩ "b" false] = (replica, none) ∧
          (Replica.ofTree (twoLists [⟨5⟩, ⟨6⟩] [⟨7⟩, ⟨8⟩] "a")).apply
            [.remove ⟨3⟩ ⟨8⟩, .remove ⟨2⟩ ⟨6⟩, .add ⟨3⟩ none (item ⟨6⟩), .add ⟨2⟩ none (item ⟨8⟩),
              .text ⟨4⟩ "b" false] = (replica, none) := by
  have compared : changes (twoLists [⟨5⟩, ⟨6⟩] [⟨7⟩, ⟨8⟩] "a")
      (twoLists [⟨5⟩, ⟨8⟩] [⟨7⟩, ⟨6⟩] "b") =
      .ok [.remove ⟨2⟩ ⟨6⟩, .remove ⟨3⟩ ⟨8⟩, .add ⟨2⟩ none (item ⟨8⟩), .add ⟨3⟩ none (item ⟨6⟩),
        .text ⟨4⟩ "b" false] := rfl
  obtain ⟨-, replica, taken, all⟩ := apply_rearranged compared (by decide) (by decide)
  refine ⟨compared, replica, taken, all [.remove ⟨3⟩ ⟨8⟩, .remove ⟨2⟩ ⟨6⟩]
    [.add ⟨3⟩ none (item ⟨6⟩), .add ⟨2⟩ none (item ⟨8⟩)] [.text ⟨4⟩ "b" false] ?_⟩
  refine ⟨.swap _ _ [], by simp [Record.isAdd], ?_, .refl _⟩
  intro parent
  by_cases first : (⟨2⟩ : NodeId) = parent
  · subst first
    rfl
  · by_cases second : (⟨3⟩ : NodeId) = parent
    · subst second
      rfl
    · simp [Record.isAdd, Record.parent?, first, second]

end SessionReplay.Document
