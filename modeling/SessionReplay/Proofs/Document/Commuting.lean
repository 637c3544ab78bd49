import Mathlib.Data.List.Perm.Basic
import SessionReplay.Proofs.Document.Inserting
import SessionReplay.Proofs.Document.Pairing

/-!
Records that can change places. Two additions can when neither gets its place from the other, and
two new contents when they are of different nodes. Records of which each two that differ in some
respect can change places can be taken in every order that leaves those alike in it in their own.
-/

namespace SessionReplay

section Steps

variable {ρ : Type u} {σ : Type v} {κ : Type w} {step : ρ → σ → σ → Prop}

/-- Steps that are taken one after the other. -/
inductive Steps (step : ρ → σ → σ → Prop) : List ρ → σ → σ → Prop
  | nil (state : σ) : Steps step [] state state
  | cons {act : ρ} {acts : List ρ} {before middle after : σ} (first : step act before middle)
      (rest : Steps step acts middle after) : Steps step (act :: acts) before after

/-- What two steps lead to, they lead to in the other order as well. -/
def Swaps (step : ρ → σ → σ → Prop) (first second : ρ) : Prop :=
  ∀ before middle after, step first before middle → step second middle after →
    ∃ instead, step second before instead ∧ step first instead after

theorem steps_append_iff {front back : List ρ} {before after : σ} :
    Steps step (front ++ back) before after ↔
      ∃ middle, Steps step front before middle ∧ Steps step back middle after := by
  induction front generalizing before with
  | nil =>
      constructor
      · intro taken
        exact ⟨before, .nil before, taken⟩
      · rintro ⟨_, none, taken⟩
        cases none
        exact taken
  | cons act front induction =>
      constructor
      · intro taken
        cases taken with
        | cons first rest =>
            obtain ⟨middle, some, others⟩ := induction.mp rest
            exact ⟨middle, .cons first some, others⟩
      · rintro ⟨middle, some, others⟩
        cases some with
        | cons first rest => exact .cons first (induction.mpr ⟨middle, rest, others⟩)

/-- A step that all before it can change places with can be taken first. -/
theorem Steps.advance {front back : List ρ} {act : ρ} {before after : σ}
    (taken : Steps step (front ++ act :: back) before after)
    (swaps : ∀ earlier ∈ front, Swaps step earlier act) :
    Steps step (act :: (front ++ back)) before after := by
  induction front generalizing before with
  | nil => exact taken
  | cons earlier front induction =>
      obtain ⟨here, others⟩ := List.forall_mem_cons.mp swaps
      cases taken with
      | cons first rest =>
          cases induction rest others with
          | cons second remaining =>
              obtain ⟨instead, now, later⟩ := here _ _ _ first second
              exact .cons now (.cons later remaining)

variable [DecidableEq κ] {key : ρ → κ}

/-- Lists that are alike name by name stay so without the first item of each name. -/
theorem filter_without {front back others : List ρ} {act : ρ}
    (apart : ∀ earlier ∈ front, key earlier ≠ key act)
    (alike : ∀ name,
      (act :: others).filter (key · = name) = (front ++ act :: back).filter (key · = name))
    (name : κ) : others.filter (key · = name) = (front ++ back).filter (key · = name) := by
  have all := alike name
  by_cases here : key act = name
  · subst here
    have nothing : front.filter (key · = key act) = [] :=
      List.filter_eq_nil_iff.mpr fun earlier member => by simpa using apart earlier member
    rw [List.filter_append, nothing, List.filter_cons_of_pos (by simp),
      List.filter_cons_of_pos (by simp)] at all
    rw [List.filter_append, nothing]
    exact (List.cons.inj all).2
  · rw [List.filter_append, List.filter_cons_of_neg (by simpa using here),
      List.filter_cons_of_neg (by simpa using here)] at all
    rw [all, List.filter_append]

theorem Steps.interleave {acts others : List ρ} {before after : σ}
    (taken : Steps step acts before after)
    (swaps : ∀ first ∈ acts, ∀ second ∈ acts, key first ≠ key second → Swaps step first second)
    (alike : ∀ name, others.filter (key · = name) = acts.filter (key · = name)) :
    Steps step others before after := by
  induction others generalizing acts before with
  | nil =>
      cases taken with
      | nil => exact .nil _
      | @cons act acts _ _ _ _ _ =>
          have listed : act ∈ (act :: acts).filter (key · = key act) := by simp
          rw [← alike (key act)] at listed
          contradiction
  | cons act others induction =>
      have own := alike (key act)
      rw [List.filter_cons_of_pos (by simp)] at own
      obtain ⟨front, back, rfl, none, -, -⟩ := List.filter_eq_cons_iff.mp own.symm
      have apart : ∀ earlier ∈ front, key earlier ≠ key act := by
        intro earlier member
        simpa using none earlier member
      have inner : (front ++ back).Sublist (front ++ act :: back) :=
        (List.sublist_cons_self act back).append_left front
      have moved := taken.advance fun earlier member =>
        swaps earlier (List.mem_append_left _ member) act
          (List.mem_append_right _ List.mem_cons_self) (apart earlier member)
      cases moved with
      | cons first rest =>
          refine .cons first (induction rest ?_ (filter_without apart alike))
          intro one oneThere two twoThere
          exact swaps one (inner.subset oneThere) two (inner.subset twoThere)

theorem filter_of_perm {acts others : List ρ} (same : others.Perm acts)
    (once : (acts.map key).Nodup) (name : κ) :
    others.filter (key · = name) = acts.filter (key · = name) := by
  have permuted := same.filter (key · = name)
  have apart : (acts.filter (key · = name)).Pairwise fun one other => key one ≠ key other :=
    (List.pairwise_map.mp once).filter _
  have named : ∀ act ∈ acts.filter (key · = name), key act = name := by
    intro act member
    exact of_decide_eq_true (List.mem_filter.mp member).2
  generalize acts.filter (key · = name) = listed at permuted apart named
  match listed with
  | [] => exact permuted.eq_nil
  | [act] => exact List.perm_singleton.mp permuted
  | first :: second :: rest =>
      have different := (List.pairwise_cons.mp apart).1 second List.mem_cons_self
      rw [named first List.mem_cons_self, named second (by simp)] at different
      exact absurd rfl different

end Steps

namespace Replica

/-- A replica takes a record. -/
def Takes (record : Record) (entries changed : Entries) : Prop :=
  applyRecord record entries = (changed, none)

theorem applyRecords_iff {records : List Record} {entries changed : Entries} :
    applyRecords records entries = (changed, none) ↔ Steps Takes records entries changed := by
  induction records generalizing entries with
  | nil =>
      constructor
      · intro done
        cases done
        exact .nil _
      · intro taken
        cases taken
        rfl
  | cons record records induction =>
      constructor
      · intro done
        rw [applyRecords] at done
        split at done
        case h_1 middle first => exact .cons first (induction.mp done)
        case h_2 refused => exact absurd done (refused changed)
      · intro taken
        cases taken with
        | cons first rest =>
            rw [applyRecords, first]
            exact induction.mpr rest

theorem apply_iff {records : List Record} {replica changed : Replica} :
    replica.apply records = (changed, none) ↔
      changed.root = replica.root ∧ Steps Takes records replica.entries changed.entries := by
  rw [← applyRecords_iff]
  constructor
  · intro applied
    obtain ⟨rfl, accepted⟩ := Prod.mk.inj applied
    exact ⟨rfl, Prod.ext rfl accepted⟩
  · rintro ⟨root, taken⟩
    obtain ⟨top, entries⟩ := changed
    rw [apply, taken, ← root]

section Adding

variable {parent : NodeId} {next : Option NodeId} {subtree : Tree Node} {entries changed : Entries}

/-- The entry of a node that gets a child. -/
def Entry.gain (entry : Entry) (next : Option NodeId) (child : NodeId) : Entry :=
  match insertIndex entry.children next with
  | .ok index => { entry with children := entry.children.insertIdx index child }
  | .error _ => entry

/-- What is put in depends on the subtree alone. -/
theorem getElem?_of_insert {outer : Option NodeId}
    (done : insert outer subtree entries = (changed, none)) (id : NodeId) :
    changed[id]? = if id ∈ Document.ids subtree then (insert outer subtree ∅).1[id]?
      else entries[id]? := by
  obtain ⟨distinct, fresh⟩ := fresh_of_insert outer subtree done
  have lists : Lists entries entries.toList := fun id entry =>
    Std.ExtTreeMap.mem_toList_iff_getElem?_eq_some.symm
  have apart : (Document.ids subtree ++ entries.toList.map Prod.fst).Nodup := by
    rw [Std.ExtTreeMap.map_fst_toList_eq_keys, List.nodup_append]
    refine ⟨distinct, Std.ExtTreeMap.nodup_keys, ?_⟩
    rintro id member _ taken rfl
    exact (fresh id member).1 (Std.ExtTreeMap.mem_keys.mp taken)
  obtain ⟨inserted, put, whole⟩ := lists_insert outer subtree lists apart
  obtain rfl : inserted = changed := congrArg Prod.fst (put.symm.trans done)
  obtain ⟨alone, single, rows⟩ := lists_insert outer subtree lists_empty (by simpa using distinct)
  rw [List.append_nil] at rows
  apply Option.ext
  intro entry
  rw [whole id entry, List.mem_append, lists id entry |>.symm]
  split
  case isTrue here =>
    have absent : entries[id]? = none := Std.ExtTreeMap.getElem?_eq_none (fresh id here).1
    rw [single, rows id entry, absent]
    simp
  case isFalse elsewhere =>
    have other : (id, entry) ∉ Replica.rows outer (subtree.map Item.of) := by
      intro member
      apply elsewhere
      rw [← ids_rows_of outer subtree]
      exact List.mem_map_of_mem member
    simp [other]

/-- What a replica has after an addition, id by id. -/
theorem getElem?_of_add (done : Takes (.add parent next subtree) entries changed) (id : NodeId) :
    changed[id]? =
      if id ∈ Document.ids subtree then (insert (some parent) subtree ∅).1[id]?
      else if id = parent then entries[id]?.map (·.gain next subtree.data.id)
      else entries[id]? := by
  have accepted : (applyAdd parent next subtree entries).2 = none := congrArg Prod.snd done
  obtain ⟨⟨⟨entry, there, -⟩, fresh⟩, distinct⟩ := applyAdd_accepted_iff.mp accepted
  have apart : parent ∉ Document.ids subtree := by
    intro inside
    rw [Std.ExtTreeMap.getElem?_eq_none (fresh parent inside)] at there
    contradiction
  simp only [Takes, applyRecord, applyAdd, there, free_iff.mpr fresh] at done
  split at done
  case h_1 => simp at done
  case h_2 index found =>
    split at done
    case h_2 refused => exact absurd done (refused changed)
    case h_1 inserted put =>
      obtain rfl := congrArg Prod.fst done
      have grown : entry.gain next subtree.data.id =
          { entry with children := entry.children.insertIdx index subtree.data.id } := by
        rw [Entry.gain, found]
      have looked := getElem?_of_insert put id
      rw [Std.ExtTreeMap.getElem?_modify]
      by_cases here : id = parent
      · subst here
        rw [if_neg apart] at looked
        simp [apart, looked, there, grown]
      · simp [Ne.symm here, here, looked]

theorem mem_of_add (done : Takes (.add parent next subtree) entries changed) {id : NodeId} :
    id ∈ changed ↔ id ∈ Document.ids subtree ∨ id ∈ entries := by
  have accepted : (applyAdd parent next subtree entries).2 = none := congrArg Prod.snd done
  have distinct := (applyAdd_accepted_iff.mp accepted).2
  have alone : (insert (some parent) subtree ∅).2 = none :=
    insert_accepted_iff.mpr ⟨distinct, fun id _ => Std.ExtTreeMap.not_mem_empty⟩
  have brought := (fresh_of_insert (some parent) subtree (Prod.ext rfl alone)).2
  rw [← Std.ExtTreeMap.isSome_getElem?_iff_mem, getElem?_of_add done]
  by_cases here : id ∈ Document.ids subtree
  · have there := (brought id here).2
    rw [← Std.ExtTreeMap.isSome_getElem?_iff_mem] at there
    simp [here, there]
  · simp only [here, if_false, false_or, ← Std.ExtTreeMap.isSome_getElem?_iff_mem]
    split
    · rw [Option.isSome_map]
    · rfl

theorem takes_add (admits : Admits entries parent next subtree)
    (distinct : (Document.ids subtree).Nodup) :
    ∃ changed, Takes (.add parent next subtree) entries changed :=
  ⟨_, Prod.ext rfl (applyAdd_accepted_iff.mpr ⟨admits, distinct⟩)⟩

/-- Two additions can change places when neither brings the other's parent. -/
theorem swaps_adds {first second : NodeId} {firstNext secondNext : Option NodeId}
    {one other : Tree Node} (unlike : first ≠ second) (firstApart : first ∉ Document.ids other)
    (secondApart : second ∉ Document.ids one) :
    Swaps Takes (.add first firstNext one) (.add second secondNext other) := by
  intro before middle after oneTaken otherTaken
  obtain ⟨⟨⟨firstEntry, firstThere, firstPlace⟩, oneFresh⟩, oneDistinct⟩ :=
    applyAdd_accepted_iff.mp (congrArg Prod.snd oneTaken)
  obtain ⟨⟨⟨secondEntry, secondThere, secondPlace⟩, otherFresh⟩, otherDistinct⟩ :=
    applyAdd_accepted_iff.mp (congrArg Prod.snd otherTaken)
  have afterOne := getElem?_of_add oneTaken
  rw [afterOne second, if_neg secondApart, if_neg (Ne.symm unlike)] at secondThere
  have otherFree : ∀ id ∈ Document.ids other, id ∉ before := fun id member there =>
    otherFresh id member ((mem_of_add oneTaken).mpr (.inr there))
  obtain ⟨instead, otherNow⟩ :=
    takes_add ⟨⟨secondEntry, secondThere, secondPlace⟩, otherFree⟩ otherDistinct
  have afterOther := getElem?_of_add otherNow
  have firstStill : instead[first]? = some firstEntry := by
    rw [afterOther first, if_neg firstApart, if_neg unlike, firstThere]
  have oneFree : ∀ id ∈ Document.ids one, id ∉ instead := by
    intro id member there
    rcases (mem_of_add otherNow).mp there with both | known
    · exact otherFresh id both ((mem_of_add oneTaken).mpr (.inl member))
    · exact oneFresh id member known
  obtain ⟨last, oneLater⟩ := takes_add ⟨⟨firstEntry, firstStill, firstPlace⟩, oneFree⟩ oneDistinct
  refine ⟨instead, otherNow, ?_⟩
  suffices same : last = after by rwa [same] at oneLater
  apply Std.ExtTreeMap.ext_getElem?
  intro id
  rw [getElem?_of_add oneLater, getElem?_of_add otherTaken, afterOther, afterOne]
  by_cases inOne : id ∈ Document.ids one
  · have notOther : id ∉ Document.ids other := fun inOther =>
      otherFresh id inOther ((mem_of_add oneTaken).mpr (.inl inOne))
    have notSecond : id ≠ second := fun same => secondApart (same ▸ inOne)
    simp [inOne, notOther, notSecond]
  · by_cases atFirst : id = first
    · subst atFirst
      simp [inOne, firstApart, unlike]
    · simp [inOne, atFirst]

end Adding

/-- What becomes of an entry whose node gets new text or new attributes. -/
def Entry.revised (entry : Entry) : Record → Option Entry
  | .text _ content masked =>
      match entry.kind with
      | .text _ isStyle => some { entry with kind := .text content isStyle, masked }
      | _ => none
  | .attributes _ masked attributes style =>
      match entry.kind with
      | .element element =>
          some { entry with
            kind := .element { element with
              attributes := attributes.apply element.attributes
              style := style.apply element.style }
            masked }
      | _ => none
  | _ => none

theorem takes_content_iff {record : Record} (still : record.parent? = none)
    {entries changed : Entries} : Takes record entries changed ↔
      ∃ old new, entries[record.target]? = some old ∧ old.revised record = some new ∧
        entries.insert record.target new = changed := by
  cases record with
  | add => contradiction
  | remove => contradiction
  | text id content masked =>
      simp only [Takes, applyRecord, applyText, Record.target, Entry.revised]
      cases entries[id]? with
      | none => simp
      | some entry =>
          obtain ⟨kind, hidden, parent, children⟩ := entry
          cases kind <;> simp
  | attributes id masked attributes style =>
      simp only [Takes, applyRecord, applyAttributes, Record.target, Entry.revised]
      cases entries[id]? with
      | none => simp
      | some entry =>
          obtain ⟨kind, hidden, parent, children⟩ := entry
          cases kind <;> simp

theorem getElem?_insert_other {entries : Entries} {changed id : NodeId} (other : changed ≠ id)
    (entry : Entry) : (entries.insert changed entry)[id]? = entries[id]? := by
  simp [Std.ExtTreeMap.getElem?_insert, other]

theorem swaps_contents {first second : Record} (firstStill : first.parent? = none)
    (secondStill : second.parent? = none) (unlike : first.target ≠ second.target) :
    Swaps Takes first second := by
  intro before middle after one other
  obtain ⟨old, new, there, became, rfl⟩ := (takes_content_iff firstStill).mp one
  obtain ⟨otherOld, otherNew, otherThere, otherBecame, rfl⟩ :=
    (takes_content_iff secondStill).mp other
  rw [getElem?_insert_other unlike] at otherThere
  have still : (before.insert second.target otherNew)[first.target]? = some old :=
    (getElem?_insert_other unlike.symm otherNew).trans there
  refine ⟨before.insert second.target otherNew,
    (takes_content_iff secondStill).mpr ⟨otherOld, otherNew, otherThere, otherBecame, rfl⟩,
    (takes_content_iff firstStill).mpr ⟨old, new, still, became, ?_⟩⟩
  apply Std.ExtTreeMap.ext_getElem?
  intro id
  simp only [Std.ExtTreeMap.getElem?_insert]
  by_cases atFirst : first.target = id
  · subst atFirst
    simp [unlike.symm]
  · simp [atFirst]

end Replica

end SessionReplay
