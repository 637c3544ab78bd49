import SessionReplay.Document.Patience
import SessionReplay.Proofs.Document.Longest
import SessionReplay.Proofs.Document.Sameness

/-!
The scan with arrays keeps the same runs as the one that holds each run as a list. The ends are
the last positions of the runs, so that their values rise and halving finds the place of the next
value; the way back from an end goes through the rest of its run, which later steps leave alone as
they only write behind it. So nothing is read or written outside an array, the way back ends, and
what is marked is a longest run.
-/

namespace SessionReplay.Patience

open LongestRun

section Arrays

variable {α : Type}

theorem put?_inside {items : Array α} {index : Nat} (inside : index < items.size) (item : α) :
    put? items index item = some (items.set index item) :=
  dif_pos inside

/-- Halving finds the count of the items that pass, when all of them come before the others. -/
theorem search_eq {test : α → Option Bool} {items : Array α} {count : Nat}
    (known : ∀ index item, items[index]? = some item → test item = some (decide (index < count)))
    {low high : Nat} (lower : low ≤ count) (upper : count ≤ high) (inside : high ≤ items.size) :
    search test items low high = some count := by
  fun_induction search test items low high with
  | case1 low high apart right left =>
      have middle : (low + high) / 2 < items.size := by omega
      have there := Array.getElem?_eq_getElem middle
      have answer := known _ _ there
      simp only [there, answer, Option.bind_eq_bind, Option.bind_some, decide_eq_true_eq]
      by_cases passes : (low + high) / 2 < count
      · rw [if_pos passes]
        exact right passes upper inside
      · rw [if_neg passes]
        exact left lower (Nat.not_lt.mp passes) (Nat.le_of_lt middle)
  | case2 low high meet =>
      have same : low = count := by omega
      rw [same]

end Arrays

/-- The way back from the first of these positions goes through the others and ends. -/
inductive Trail (back : Array (Option Nat)) : List Nat → Prop
  | nil : Trail back []
  | cons {position : Nat} {earlier : List Nat} (there : back[position]? = some earlier.head?)
      (rest : Trail back earlier) : Trail back (position :: earlier)

/-- What is written elsewhere leaves the way back as it is. -/
theorem Trail.set {back : Array (Option Nat)} {positions : List Nat} (trail : Trail back positions)
    {index : Nat} (inside : index < back.size) (before : Option Nat) (apart : index ∉ positions) :
    Trail (back.set index before) positions := by
  induction trail with
  | nil => exact .nil
  | @cons position earlier there _ induction =>
      rw [List.mem_cons, not_or] at apart
      apply Trail.cons _ (induction apart.2)
      rw [Array.getElem?_set_ne inside apart.1]
      exact there

theorem trail_longest {back : Array (Option Nat)} {runs : List Run}
    (trails : ∀ run ∈ runs, Trail back run.positions) : Trail back (longest runs []) := by
  unfold longest
  cases last : runs.getLast? with
  | none => exact .nil
  | some run => exact trails run (List.mem_of_getLast? last)

theorem head?_longest (runs : List Run) :
    (longest runs []).head? = (runs.map Run.position).getLast? := by
  rw [longest, List.getLast?_map]
  cases runs.getLast? <;> rfl

/-- The walk ends, and marks exactly the positions on its way. -/
theorem walk_trail {back : Array (Option Nat)} {positions : List Nat} (trail : Trail back positions)
    {keep : Array Bool} (inside : ∀ position ∈ positions, position < keep.size) :
    ∃ kept, Walk back positions.head? keep kept ∧
      ∀ index, kept[index]? = if index ∈ positions then some true else keep[index]? := by
  induction trail generalizing keep with
  | nil => exact ⟨keep, .done keep, by simp⟩
  | @cons position earlier there _ induction =>
      obtain ⟨here, others⟩ := List.forall_mem_cons.mp inside
      have bounded : ∀ index ∈ earlier, index < (keep.set position true).size := by
        simpa using others
      obtain ⟨kept, walk, marked⟩ := induction bounded
      refine ⟨kept, .step (put?_inside here true) there walk, ?_⟩
      intro index
      rw [marked, Array.getElem?_set]
      by_cases same : position = index
      · simp [same]
      · simp [same, Ne.symm same]

theorem Walk.unique {back : Array (Option Nat)} {cursor : Option Nat} {keep kept other : Array Bool}
    (walk : Walk back cursor keep kept) (again : Walk back cursor keep other) : kept = other := by
  induction walk generalizing other with
  | done =>
      cases again
      rfl
  | step mark there _ induction =>
      cases again with
      | step otherMark otherThere rest =>
          obtain rfl := Option.some.inj (mark.symm.trans otherMark)
          obtain rfl := Option.some.inj (there.symm.trans otherThere)
          exact induction rest

/-- The arrays hold these runs. -/
structure Follows (count : Nat) (scan : Scan) (runs : List Run) : Prop where
  ends : scan.ends.toList = runs.map Run.position
  size : scan.back.size = count
  trails : ∀ run ∈ runs, Trail scan.back run.positions

theorem split_climbing {runs : List Run} (climbing : Climbing runs) (value : Nat) :
    ∃ lower upper, runs = lower ++ upper ∧ (∀ run ∈ lower, run.value < value) ∧
      ∀ run ∈ upper, ¬run.value < value := by
  induction runs with
  | nil => exact ⟨[], [], rfl, nofun, nofun⟩
  | cons first runs induction =>
      obtain ⟨above, rest⟩ := List.pairwise_cons.mp climbing
      by_cases less : first.value < value
      · obtain ⟨lower, upper, same, below, others⟩ := induction rest
        rw [same]
        exact ⟨first :: lower, upper, rfl, List.forall_mem_cons.mpr ⟨less, below⟩, others⟩
      · have others : ∀ run ∈ runs, ¬run.value < value := by
          intro run member
          have greater := above run member
          omega
        exact ⟨[], first :: runs, rfl, nofun, List.forall_mem_cons.mpr ⟨less, others⟩⟩

section Step

variable {values : List Nat} {lower upper : List Run} {seen value : Nat} {ends : Array Nat}

/-- Among the ends those with a lesser value are found. -/
theorem search_ends (listed : ends.toList = (lower ++ upper).map Run.position)
    (sound : ∀ run ∈ lower ++ upper, Sound values seen run) (inside : seen ≤ values.length)
    (below : ∀ run ∈ lower, run.value < value) (above : ∀ run ∈ upper, ¬run.value < value) :
    search (fun last => values.toArray[last]?.map (· < value)) ends 0 ends.size =
      some lower.length := by
  have size : ends.size = lower.length + upper.length := by
    rw [← Array.length_toList, listed, List.length_map, List.length_append]
  apply search_eq _ (Nat.zero_le _) (by omega) (Nat.le_refl _)
  intro index last there
  rw [← Array.getElem?_toList, listed, List.getElem?_map] at there
  obtain ⟨run, found, rfl⟩ := Option.map_eq_some_iff.mp there
  have known := sound run (List.mem_of_getElem? found)
  have early := known.known run.position List.mem_cons_self
  have late : run.position < values.length := by omega
  have item : values[run.position]? = some run.value := by
    rw [List.getElem?_eq_getElem late, ← known.value, List.getD_eq_getElem _ _ late]
  have place : run.value < value ↔ index < lower.length := by
    by_cases first : index < lower.length
    · rw [List.getElem?_append_left first] at found
      simp [first, below run (List.mem_of_getElem? found)]
    · rw [List.getElem?_append_right (Nat.not_lt.mp first)] at found
      simp only [first, above run (List.mem_of_getElem? found)]
  simp [item, place]

/-- The end that the next value is put behind is that of the last run below it. -/
theorem endOf?_eq (listed : ends.toList = (lower ++ upper).map Run.position) :
    endOf? ends lower.length = some (longest lower []).head? := by
  rw [head?_longest]
  rcases List.eq_nil_or_concat' lower with rfl | ⟨front, last, rfl⟩
  · rfl
  · have there : ends[front.length]? = some last.position := by
      rw [← Array.getElem?_toList, listed]
      simp
    rw [List.length_append, List.length_singleton, endOf?, there]
    simp

theorem promote?_eq {front rest : List Nat} (listed : ends.toList = front ++ rest)
    (position : Nat) : ∃ after, promote? ends front.length position = some after ∧
      after.toList = front ++ position :: rest.tail := by
  have size : ends.size = front.length + rest.length := by
    rw [← Array.length_toList, listed, List.length_append]
  unfold promote?
  cases rest with
  | nil =>
      rw [if_pos (by simp [size])]
      refine ⟨_, rfl, ?_⟩
      rw [Array.toList_push, listed]
      simp
  | cons former rest =>
      have inside : front.length < ends.size := by
        rw [size, List.length_cons]
        omega
      rw [if_neg (Nat.ne_of_lt inside), put?_inside inside]
      refine ⟨_, rfl, ?_⟩
      rw [Array.toList_set, listed]
      simp

end Step

/-- Each step goes through and puts the value where it belongs among the runs. -/
theorem follows_step {values : List Nat} {scan : Scan} {runs : List Run} {seen : Nat}
    (follows : Follows values.length scan runs) (climbing : Climbing runs)
    (sound : ∀ run ∈ runs, Sound values seen run) (inside : seen < values.length) (value : Nat) :
    ∃ next, step values.toArray scan value seen = some next ∧
      Follows values.length next (place seen value [] runs) := by
  obtain ⟨lower, upper, rfl, below, above⟩ := split_climbing climbing value
  have length := search_ends follows.ends sound (Nat.le_of_lt inside) below above
  have before := endOf?_eq follows.ends
  have free : seen < scan.back.size := by rwa [follows.size]
  have former : scan.ends.toList = lower.map Run.position ++ upper.map Run.position := by
    rw [follows.ends, List.map_append]
  obtain ⟨ends, promoted, listed⟩ := promote?_eq former seen
  rw [List.length_map] at promoted
  -- No run goes through the position that is written.
  have kept : ∀ run ∈ lower ++ upper,
      Trail (scan.back.set seen (longest lower []).head?) run.positions := by
    intro run member
    apply (follows.trails run member).set free
    intro through
    exact Nat.lt_irrefl seen ((sound run member).known seen through)
  have behind := trail_longest fun run member => kept run (List.mem_append_left upper member)
  refine ⟨⟨ends, scan.back.set seen (longest lower []).head?⟩, ?_, ?_⟩
  · simp only [step, length, before, put?_inside free, promoted, Option.bind_eq_bind,
      Option.bind_some]
  · rw [place_between [] below above]
    constructor
    case ends =>
      rw [listed]
      simp
    case size => rw [Array.size_set, follows.size]
    case trails =>
      intro run member
      rcases List.mem_append.mp member with early | rest
      · exact kept run (List.mem_append_left upper early)
      · rcases List.mem_cons.mp rest with rfl | late
        · apply Trail.cons _ behind
          rw [Array.getElem?_set_self free]
        · exact kept run (List.mem_append_right lower (List.mem_of_mem_tail late))

theorem follows_fold {values passed rest : List Nat} (split : values = passed ++ rest)
    {scan : Scan} {runs : List Run} (follows : Follows values.length scan runs)
    (climbing : Climbing runs) (sound : ∀ run ∈ runs, Sound values passed.length run) :
    ∃ found, (rest.zipIdx passed.length).foldlM
        (fun scan (value, position) => step values.toArray scan value position) scan = some found ∧
      Follows values.length found ((rest.zipIdx passed.length).foldl
        (fun runs (value, position) => place position value [] runs) runs) := by
  induction rest generalizing passed scan runs with
  | nil => exact ⟨scan, rfl, follows⟩
  | cons value rest induction =>
      have here : values.getD passed.length 0 = value := by simp [split]
      have inside : passed.length < values.length := by simp [split]
      have regrouped : values = (passed ++ [value]) ++ rest := by simp [split]
      have count : (passed ++ [value]).length = passed.length + 1 := by simp
      obtain ⟨next, stepped, after⟩ := follows_step follows climbing sound inside value
      have others := sound_place sound here List.Pairwise.nil (by simp)
      rw [← count] at others
      obtain ⟨found, folded, last⟩ := induction regrouped after (climbing_place climbing) others
      rw [count] at folded last
      refine ⟨found, ?_, last⟩
      simp only [List.zipIdx_cons, List.foldlM_cons, stepped]
      exact folded

theorem follows_scan (values : List Nat) :
    ∃ found, scan values = some found ∧ Follows values.length found (runs values) := by
  have start : Follows values.length ⟨#[], Array.replicate values.length none⟩ [] :=
    ⟨rfl, Array.size_replicate, nofun⟩
  have split : values = [] ++ values := rfl
  exact follows_fold split start List.Pairwise.nil nofun

/-- From the end of the longest run the way back goes through all of it. -/
theorem trail_positions {values : List Nat} {found : Scan}
    (follows : Follows values.length found (runs values)) :
    found.ends.back? = (positions values).head? ∧ Trail found.back (positions values) := by
  rw [positions_eq_longest]
  constructor
  · rw [head?_longest, ← follows.ends, Array.getLast?_toList]
  · exact trail_longest follows.trails

/-- The scan with arrays results in one mask, which is that of the scan with lists. -/
theorem marks_iff (values : List Nat) (mask : List Bool) :
    Marks values mask ↔ mask = LongestRun.mask values := by
  obtain ⟨found, scanned, follows⟩ := follows_scan values
  obtain ⟨cursor, trail⟩ := trail_positions follows
  have inside : ∀ position ∈ positions values,
      position < (Array.replicate values.length false).size := by
    simpa using fun _ => positions_inside
  obtain ⟨kept, walk, marked⟩ := walk_trail trail inside
  have same : kept.toList = LongestRun.mask values := by
    apply List.ext_getElem?
    intro index
    rw [Array.getElem?_toList, marked, LongestRun.mask, List.getElem?_map]
    by_cases through : index ∈ positions values
    · simp [through, positions_inside through]
    · by_cases inside : index < values.length <;> simp [through, inside]
  rw [← cursor] at walk
  constructor
  · intro marks
    obtain ⟨other, result, otherScanned, otherWalk, equal⟩ := marks
    obtain rfl := Option.some.inj (scanned.symm.trans otherScanned)
    rw [← equal, ← same, walk.unique otherWalk]
  · intro equal
    exact ⟨found, kept, scanned, walk, same.trans equal.symm⟩

/-- The values that are marked. -/
def marked (values : List Nat) (mask : List Bool) : List Nat :=
  (values.zip mask).filterMap fun (value, keep) => if keep then some value else none

/-- For every list of numbers the scan reads and writes inside its arrays, its way back ends, and
only one mask can result. It says for each number whether it is marked, those that are marked rise
from left to right, and no others that rise are more. -/
theorem marks_longest (values : List Nat) :
    (∀ mask, Marks values mask ↔ mask = LongestRun.mask values) ∧
      (LongestRun.mask values).length = values.length ∧
      (marked values (LongestRun.mask values)).Pairwise (· < ·) ∧
      ∀ part : List Nat, part.Sublist values → part.Pairwise (· < ·) →
        part.length ≤ (marked values (LongestRun.mask values)).length := by
  constructor
  · exact marks_iff values
  constructor
  · exact mask_length values
  constructor
  · exact Document.rising_zip_mask values
  · intro part inside rising
    rw [marked, length_zip_mask]
    exact length_le_positions inside rising

example : LongestRun.mask [3, 0, 2, 1, 4] = [false, true, false, true, true] := by decide

end SessionReplay.Patience
