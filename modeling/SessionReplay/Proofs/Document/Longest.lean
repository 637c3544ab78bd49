import SessionReplay.Proofs.Document.Staying

/-!
The run that is kept is a longest one. For each length the best run ends with the least value that
any rising part of the list of that length ends with, so that no rising part has a length for
which there is no run.
-/

namespace SessionReplay.LongestRun

/-- Runs in the order of their lengths, the first of which is one more than `shorter`. -/
def Graded (shorter : Nat) (runs : List Run) : Prop :=
  ∀ index run, runs[index]? = some run → run.positions.length = shorter + index + 1

/-- A longer run ends with a greater value. -/
def Climbing (runs : List Run) : Prop := runs.Pairwise fun run longer => run.value < longer.value

theorem graded_place {position value : Nat} {shorter : List Nat} {runs : List Run}
    (graded : Graded shorter.length runs) :
    Graded shorter.length (place position value shorter runs) := by
  induction runs generalizing shorter with
  | nil =>
      intro index run there
      cases index with
      | zero => cases there; rfl
      | succ index => contradiction
  | cons first runs induction =>
      have length : first.positions.length = shorter.length + 1 := graded 0 first rfl
      rw [place]
      split
      case isTrue =>
        have rest : Graded first.positions.length runs := by
          intro index run there
          rw [graded (index + 1) run there, length]
          omega
        intro index run there
        cases index with
        | zero => cases there; exact length
        | succ index =>
            rw [induction rest index run there, length]
            omega
      case isFalse =>
        intro index run there
        cases index with
        | zero => cases there; rfl
        | succ index => exact graded (index + 1) run there

theorem mem_place {position value : Nat} {shorter : List Nat} {runs : List Run} {run : Run}
    (member : run ∈ place position value shorter runs) : run.value = value ∨ run ∈ runs := by
  induction runs generalizing shorter with
  | nil =>
      rw [List.mem_singleton.mp member]
      exact .inl rfl
  | cons first runs induction =>
      rw [place] at member
      split at member
      case isTrue =>
        rcases List.mem_cons.mp member with rfl | later
        · exact .inr List.mem_cons_self
        · exact (induction later).imp_right (List.mem_cons_of_mem first)
      case isFalse =>
        rcases List.mem_cons.mp member with rfl | later
        · exact .inl rfl
        · exact .inr (List.mem_cons_of_mem first later)

theorem climbing_place {position value : Nat} {shorter : List Nat} {runs : List Run}
    (climbing : Climbing runs) : Climbing (place position value shorter runs) := by
  induction runs generalizing shorter with
  | nil => exact List.pairwise_singleton _ _
  | cons first runs induction =>
      obtain ⟨above, rest⟩ := List.pairwise_cons.mp climbing
      rw [place]
      split
      case isTrue less =>
        refine List.pairwise_cons.mpr ⟨fun run member => ?_, induction rest⟩
        rcases mem_place member with same | before
        · rw [same]
          exact less
        · exact above run before
      case isFalse least =>
        refine List.pairwise_cons.mpr ⟨fun run member => ?_, rest⟩
        exact Nat.lt_of_le_of_lt (Nat.not_lt.mp least) (above run member)

/-- No length gets a run with a greater value. -/
theorem place_falls {position value : Nat} {shorter : List Nat} {runs : List Run} {index : Nat}
    {run : Run} (there : runs[index]? = some run) :
    ∃ now, (place position value shorter runs)[index]? = some now ∧ now.value ≤ run.value := by
  induction runs generalizing shorter index with
  | nil => contradiction
  | cons first runs induction =>
      rw [place]
      split
      case isTrue =>
        cases index with
        | zero => exact ⟨first, rfl, by cases there; exact Nat.le_refl _⟩
        | succ index => exact induction there
      case isFalse least =>
        cases index with
        | zero => exact ⟨_, rfl, by cases there; exact Nat.not_lt.mp least⟩
        | succ index => exact ⟨run, there, Nat.le_refl _⟩

theorem place_head (position value : Nat) (shorter : List Nat) (runs : List Run) :
    ∃ now, (place position value shorter runs)[0]? = some now ∧ now.value ≤ value := by
  cases runs with
  | nil => exact ⟨_, rfl, Nat.le_refl _⟩
  | cons first runs =>
      rw [place]
      split
      case isTrue less => exact ⟨first, rfl, Nat.le_of_lt less⟩
      case isFalse => exact ⟨_, rfl, Nat.le_refl _⟩

/-- Behind a run that ends below the value there is one that ends with no more than it. -/
theorem place_reaches {position value : Nat} {shorter : List Nat} {runs : List Run} {index : Nat}
    {run : Run} (climbing : Climbing runs) (there : runs[index]? = some run)
    (below : run.value < value) :
    ∃ now, (place position value shorter runs)[index + 1]? = some now ∧ now.value ≤ value := by
  induction runs generalizing shorter index with
  | nil => contradiction
  | cons first runs induction =>
      obtain ⟨above, rest⟩ := List.pairwise_cons.mp climbing
      have less : first.value < value := by
        cases index with
        | zero => cases there; exact below
        | succ index => exact Nat.lt_trans (above run (List.mem_of_getElem? there)) below
      rw [place, if_pos less]
      cases index with
      | zero => exact place_head position value first.positions runs
      | succ index => exact induction rest there

/-- The runs after the values in `seen`. No rising part of these ends below the run of its
length. -/
structure Best (seen : List Nat) (runs : List Run) : Prop where
  graded : Graded 0 runs
  climbing : Climbing runs
  least : ∀ part last, (part ++ [last]).Sublist seen → (part ++ [last]).Pairwise (· < ·) →
    ∃ run, runs[part.length]? = some run ∧ run.value ≤ last

theorem best_place {seen : List Nat} {runs : List Run} (best : Best seen runs)
    (position value : Nat) : Best (seen ++ [value]) (place position value [] runs) := by
  refine ⟨graded_place best.graded, climbing_place best.climbing, ?_⟩
  intro part last inside rising
  obtain ⟨former, new, split, formerInside, newInside⟩ := List.sublist_append_iff.mp inside
  cases newInside with
  | cons _ none =>
      obtain rfl := List.sublist_nil.mp none
      rw [List.append_nil] at split
      obtain ⟨run, there, ends⟩ := best.least part last (split ▸ formerInside) rising
      obtain ⟨now, place, falls⟩ := place_falls there
      exact ⟨now, place, Nat.le_trans falls ends⟩
  | cons_cons _ none =>
      obtain rfl := List.sublist_nil.mp none
      obtain ⟨rfl, same⟩ := List.append_inj' split rfl
      obtain rfl : last = value := List.singleton_injective same
      obtain ⟨formerRising, -, below⟩ := List.pairwise_append.mp rising
      rcases List.eq_nil_or_concat' part with rfl | ⟨front, middle, rfl⟩
      · exact place_head position last [] runs
      · obtain ⟨run, there, ends⟩ := best.least front middle formerInside formerRising
        have less : middle < last := below middle (by simp) last (by simp)
        rw [List.length_append, List.length_singleton]
        exact place_reaches best.climbing there (Nat.lt_of_le_of_lt ends less)

theorem best_fold {seen : List Nat} {runs : List Run} (best : Best seen runs) (values : List Nat)
    (position : Nat) : Best (seen ++ values)
      ((values.zipIdx position).foldl (fun runs (value, position) => place position value [] runs)
        runs) := by
  induction values generalizing seen runs position with
  | nil => simpa using best
  | cons value values induction =>
      have next := induction (best_place best position value) (position + 1)
      rwa [List.append_assoc] at next

theorem best_runs (values : List Nat) : Best values (runs values) := by
  have start : Best [] [] := by
    refine ⟨nofun, List.Pairwise.nil, fun part last inside _ => ?_⟩
    exact absurd (List.sublist_nil.mp inside) (by simp)
  exact best_fold start values 0

theorem length_positions (values : List Nat) :
    (positions values).length = (runs values).length := by
  unfold positions
  split
  case h_1 run last =>
    rw [List.getLast?_eq_getElem?] at last
    have inside := (List.getElem?_eq_some_iff.mp last).1
    rw [(best_runs values).graded _ run last]
    omega
  case h_2 none => simp [List.getLast?_eq_none_iff.mp none]

/-- No rising part of a list is longer than the run that is kept. -/
theorem length_le_positions {values part : List Nat} (inside : part.Sublist values)
    (rising : part.Pairwise (· < ·)) : part.length ≤ (positions values).length := by
  rw [length_positions]
  rcases List.eq_nil_or_concat' part with rfl | ⟨front, last, rfl⟩
  · exact Nat.zero_le _
  · obtain ⟨run, there, -⟩ := (best_runs values).least front last inside rising
    rw [List.length_append, List.length_singleton]
    exact (List.getElem?_eq_some_iff.mp there).1

theorem nodup_positions (values : List Nat) : (positions values).Nodup :=
  (falling_positions values).imp fun known => Nat.ne_of_gt known.1

theorem positions_inside {values : List Nat} {position : Nat}
    (kept : position ∈ positions values) : position < values.length := by
  unfold positions at kept
  split at kept
  case h_1 run last => exact (sound_runs values run (List.mem_of_getLast? last)).known _ kept
  case h_2 => contradiction

/-- As many values are kept as the run is long. -/
theorem length_zip_mask (values : List Nat) :
    ((values.zip (mask values)).filterMap fun (value, keep) =>
      if keep then some value else none).length = (positions values).length := by
  have counted : ((values.zip (mask values)).filterMap fun (value, keep) =>
      if keep then some value else none).length =
      ((values.zip (mask values)).map Prod.snd).countP id := by
    rw [List.length_filterMap_eq_countP, List.countP_map]
    apply List.countP_congr
    intro entry _
    cases entry.2 <;> simp
  have marked : (values.zip (mask values)).map Prod.snd = mask values :=
    List.map_snd_zip (by simp [mask_length])
  have same : ((List.range values.length).filter (positions values).contains).Perm
      (positions values) := by
    apply (List.perm_ext_iff_of_nodup (List.nodup_range.filter _) (nodup_positions values)).mpr
    intro position
    simp only [List.mem_filter, List.mem_range, List.contains_iff_mem, and_iff_right_iff_imp]
    exact positions_inside
  rw [counted, marked, mask, List.countP_map, ← same.length_eq, List.countP_eq_length_filter]
  rfl

end SessionReplay.LongestRun
