import SessionReplay.Trace.Recording
import SessionReplay.Trace.Timeline
import Mathlib.Data.List.Basic
import Mathlib.Order.Bounds.Defs

/-!
The time line of any recording, slice by slice. Each tick has one slice, which is closed before the
next one opens, and everything that was recorded in between is drawn inside it, once and in its
order.
-/

namespace SessionReplay.Trace

/-- Whether a tick begins with the event. -/
def Event.begins : Event → Bool
  | tickBegin .. => true
  | _ => false

/-- The time of an emission. -/
def Event.emitted? : Event → Option Nat
  | emission _ time _ _ => some time.millis.toNat
  | _ => none

/-- How many entries an event has inside a slice. -/
def Event.share : Event → Nat
  | tickBegin .. => 0
  | capture _ _ _ _ truncated => if truncated then 2 else 1
  | _ => 1

namespace Timeline

/-- A time and those of the emissions since. -/
def times (start : Nat) (events : List Event) : List Nat :=
  start :: events.filterMap Event.emitted?

def latest (start : Nat) (events : List Event) : Nat :=
  (events.filterMap Event.emitted?).foldl max start

/-- What is drawn for events, each at the latest time that was known when it came. -/
def drawn (start : Nat) (events : List Event) : List Entry :=
  events.zipIdx.flatMap fun (event, place) => inside (latest start (events.take place)) event

/-- A tick and what was recorded until the next one began. -/
structure Slice where
  tick : UInt64
  time : Timestamp
  inner : List Event

namespace Slice

variable (slice : Slice)

def events : List Event := .tickBegin slice.tick slice.time :: slice.inner

def start : Nat := slice.time.millis.toNat

def finish : Nat := latest slice.start slice.inner

/-- One of the two ends of a slice. -/
def edge (phase : Phase) (millis : Nat) : Entry where
  phase
  name := "Tick"
  category := "Capture"
  micros := min (1000 * millis) (UInt64.size - 1)
  details := [("tick_index", .integer slice.tick.toNat)]

def opening : Entry := slice.edge .begin slice.start

def closing : Entry := slice.edge .finish slice.finish

def entries : List Entry := slice.opening :: (drawn slice.start slice.inner ++ [slice.closing])

end Slice

/-- Events are cut at every beginning of a tick, and nowhere else. -/
structure Sliced (events early : List Event) (slices : List Slice) : Prop where
  whole : events = early ++ slices.flatMap Slice.events
  early : ∀ event ∈ early, event.begins = false
  inner : ∀ slice ∈ slices, ∀ event ∈ slice.inner, event.begins = false

theorem exists_sliced (events : List Event) : ∃ early slices, Sliced events early slices := by
  induction events with
  | nil => exact ⟨[], [], rfl, List.forall_mem_nil _, List.forall_mem_nil _⟩
  | cons event events induction =>
      obtain ⟨early, slices, sliced⟩ := induction
      cases begins : event.begins with
      | true =>
          cases event with
          | tickBegin tick time =>
              refine ⟨[], ⟨tick, time, early⟩ :: slices, ?_, List.forall_mem_nil _,
                List.forall_mem_cons.mpr ⟨sliced.early, sliced.inner⟩⟩
              rw [sliced.whole]
              rfl
          | _ => contradiction
      | false =>
          refine ⟨event :: early, slices, ?_,
            List.forall_mem_cons.mpr ⟨begins, sliced.early⟩, sliced.inner⟩
          rw [sliced.whole, List.cons_append]

theorem isGreatest_latest (start : Nat) (events : List Event) :
    IsGreatest {time | time ∈ times start events} (latest start events) :=
  List.max?_eq_some_iff.mp List.max?_cons'

section Drawing

variable (now : Nat)

theorem latest_cons (event : Event) (events : List Event) :
    latest now (event :: events) = latest (latest now [event]) events := by
  cases emitted : event.emitted? <;> simp [latest, emitted]

theorem drawn_cons (event : Event) (events : List Event) :
    drawn now (event :: events) = inside now event ++ drawn (latest now [event]) events := by
  rw [drawn, drawn, List.zipIdx_cons, List.flatMap_cons, List.zipIdx_succ, List.flatMap_map]
  refine congrArg (inside now event ++ ·) (List.flatMap_congr ?_)
  rintro ⟨later, place⟩ _
  dsimp only
  rw [List.take_succ_cons, latest_cons]

theorem advance_eq_latest {event : Event} (within : event.begins = false) :
    advance now event = latest now [event] := by
  cases event with
  | tickBegin tick time => contradiction
  | _ => rfl

theorem entriesFrom_within {event : Event} (within : event.begins = false)
    (current : Option UInt64) (events : List Event) :
    entriesFrom now current (event :: events) =
      inside now event ++ entriesFrom (latest now [event]) current events := by
  rw [← advance_eq_latest now within]
  cases event with
  | tickBegin tick time => contradiction
  | _ => rfl

/-- Up to the next tick everything is drawn inside the slice that is open. -/
theorem entriesFrom_inner {inner : List Event} (within : ∀ event ∈ inner, event.begins = false)
    (current : Option UInt64) (rest : List Event) :
    entriesFrom now current (inner ++ rest) =
      drawn now inner ++ entriesFrom (latest now inner) current rest := by
  induction inner generalizing now with
  | nil => rfl
  | cons event inner induction =>
      obtain ⟨first, others⟩ := List.forall_mem_cons.mp within
      rw [List.cons_append, entriesFrom_within now first, induction _ others, drawn_cons,
        ← latest_cons, List.append_assoc]

end Drawing

theorem Slice.opening_eq (slice : Slice) : beginTick slice.tick slice.start = slice.opening := by
  rw [beginTick, micros, Nat.mul_comm]
  rfl

theorem Slice.closing_eq (slice : Slice) : endTick slice.tick slice.finish = slice.closing := by
  rw [endTick, micros, Nat.mul_comm]
  rfl

/-- A tick first ends the slice that is open. -/
theorem entriesFrom_events (now : Nat) (current : Option UInt64) (slice : Slice)
    (rest : List Event) : entriesFrom now current (slice.events ++ rest) =
      close now current ++ slice.opening ::
        entriesFrom slice.start (some slice.tick) (slice.inner ++ rest) := by
  rw [← slice.opening_eq]
  rfl

theorem entriesFrom_slices {slices : List Slice}
    (within : ∀ slice ∈ slices, ∀ event ∈ slice.inner, event.begins = false) (now : Nat)
    (current : Option UInt64) :
    entriesFrom now current (slices.flatMap Slice.events) =
      close now current ++ slices.flatMap Slice.entries := by
  induction slices generalizing now current with
  | nil => exact (List.append_nil _).symm
  | cons slice slices induction =>
      obtain ⟨first, others⟩ := List.forall_mem_cons.mp within
      have closed : close (latest slice.start slice.inner) (some slice.tick) = [slice.closing] :=
        congrArg ([·]) slice.closing_eq
      rw [List.flatMap_cons, entriesFrom_events, entriesFrom_inner slice.start first,
        induction others, closed, List.flatMap_cons, Slice.entries]
      simp only [List.cons_append, List.append_assoc, List.nil_append]

theorem entries_sliced {events early : List Event} {slices : List Slice}
    (sliced : Sliced events early slices) :
    Timeline.entries events = drawn 0 early ++ slices.flatMap Slice.entries := by
  rw [Timeline.entries, sliced.whole, entriesFrom_inner 0 sliced.early,
    entriesFrom_slices sliced.inner]
  rfl

theorem length_inside (now : Nat) (event : Event) : (inside now event).length = event.share := by
  cases event with
  | capture tick nodes maxDepth placeholders truncated => cases truncated <;> rfl
  | _ => rfl

/-- Whether a slice begins or ends with the entry. -/
def Entry.isEdge (entry : Entry) : Bool := entry.phase = .begin || entry.phase = .finish

theorem not_edge_inside {now : Nat} {event : Event} {entry : Entry}
    (member : entry ∈ inside now event) : entry.isEdge = false := by
  cases event with
  | tickBegin tick time => contradiction
  | capture tick nodes maxDepth placeholders truncated =>
      rcases List.mem_cons.mp member with rfl | more
      · rfl
      · split at more
        · rw [List.mem_singleton.mp more]
          rfl
        · contradiction
  | _ =>
      rw [List.mem_singleton.mp member]
      rfl

theorem edges_drawn (start : Nat) (events : List Event) :
    (drawn start events).filter Entry.isEdge = [] := by
  rw [List.filter_eq_nil_iff]
  intro entry member
  obtain ⟨⟨event, place⟩, -, inner⟩ := List.mem_flatMap.mp member
  rw [not_edge_inside inner]
  exact Bool.false_ne_true

theorem edges_entries (slices : List Slice) :
    (slices.flatMap Slice.entries).filter Entry.isEdge =
      slices.flatMap fun slice => [slice.opening, slice.closing] := by
  rw [List.filter_flatMap]
  refine List.flatMap_congr fun slice _ => ?_
  have opening : slice.opening.isEdge = true := rfl
  have closing : slice.closing.isEdge = true := rfl
  simp [Slice.entries, edges_drawn, opening, closing]

theorem Slice.start_le_finish (slice : Slice) : slice.start ≤ slice.finish :=
  (isGreatest_latest slice.start slice.inner).2 List.mem_cons_self

theorem Slice.opening_le_closing (slice : Slice) :
    slice.opening.micros ≤ slice.closing.micros := by
  have later := slice.start_le_finish
  change min (1000 * slice.start) (UInt64.size - 1) ≤ min (1000 * slice.finish) (UInt64.size - 1)
  omega

end Timeline

end SessionReplay.Trace
