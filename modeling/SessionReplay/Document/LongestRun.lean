/-!
A longest strictly increasing run in a list of numbers, found from left to right. Among the runs
of one length the best is the one with the least last value, so it is enough to keep one run for
each length. The next number lengthens the longest run that ends below it and becomes the best
run of that length.
-/

namespace SessionReplay.LongestRun

/-- A run by the positions of its items, with the last item's value. -/
structure Run where
  position : Nat
  value : Nat
  /-- The positions of the other items, the latest first. -/
  earlier : List Nat
deriving DecidableEq, Repr

def Run.positions (run : Run) : List Nat := run.position :: run.earlier

/-- Puts an item behind the longest of the runs that end below it. The runs come by length, and
`shorter` is the run before the first of them. -/
def place (position value : Nat) (shorter : List Nat) : List Run → List Run
  | [] => [⟨position, value, shorter⟩]
  | run :: runs =>
      if run.value < value then run :: place position value run.positions runs
      else ⟨position, value, shorter⟩ :: runs

def runs (values : List Nat) : List Run :=
  values.zipIdx.foldl (fun runs (value, position) => place position value [] runs) []

/-- The positions of a longest run, the last first. -/
def positions (values : List Nat) : List Nat :=
  match (runs values).getLast? with
  | some run => run.positions
  | none => []

/-- For each number whether it belongs to the run that is kept. -/
def mask (values : List Nat) : List Bool :=
  (List.range values.length).map fun position => (positions values).contains position

theorem mask_length (values : List Nat) : (mask values).length = values.length := by
  simp [mask]

end SessionReplay.LongestRun
