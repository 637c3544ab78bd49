/-!
A longest strictly increasing run in a list of numbers, found with two arrays. For each length only
the position where the best run of that length ends is kept, and for each position the one before
it in the run that it was put behind. The length that the next number can reach is found by
halving. Whatever is read or written outside an array has no result, so that a result says that
nothing was.
-/

namespace SessionReplay.Patience

variable {α : Type}

/-- The array with another item in one place. -/
def put? (items : Array α) (index : Nat) (item : α) : Option (Array α) :=
  if inside : index < items.size then some (items.set index item) else none

/-- How many items come before the first one that fails the test, when those before `low` pass and
those from `high` on fail. -/
def search (test : α → Option Bool) (items : Array α) (low high : Nat) : Option Nat :=
  if low < high then do
    let item ← items[(low + high) / 2]?
    if ← test item then search test items ((low + high) / 2 + 1) high
    else search test items low ((low + high) / 2)
  else some low
termination_by high - low

/-- What is known after some of the numbers. -/
structure Scan where
  /-- The position where the best run of each length ends, from the length one on. -/
  ends : Array Nat
  /-- The position before each one in its run. The first of a run has none. -/
  back : Array (Option Nat)

/-- The end of the best run of a length. There is no run of no length. -/
def endOf? (ends : Array Nat) : (length : Nat) → Option (Option Nat)
  | 0 => some none
  | length + 1 => ends[length]?.map some

/-- Makes a position the end of the best run that is longer by one. -/
def promote? (ends : Array Nat) (length position : Nat) : Option (Array Nat) :=
  if length = ends.size then some (ends.push position) else put? ends length position

/-- Puts a number behind the longest of the runs that end below it. -/
def step (values : Array Nat) (scan : Scan) (value position : Nat) : Option Scan := do
  let length ← search (fun last => values[last]?.map (· < value)) scan.ends 0 scan.ends.size
  let before ← endOf? scan.ends length
  let back ← put? scan.back position before
  let ends ← promote? scan.ends length position
  some { ends, back }

def scan (values : List Nat) : Option Scan :=
  values.zipIdx.foldlM (fun scan (value, position) => step values.toArray scan value position)
    { ends := #[], back := Array.replicate values.length none }

/-- Marks a position and all before it in its run. From a way back that does not end nothing
results. -/
inductive Walk (back : Array (Option Nat)) : Option Nat → Array Bool → Array Bool → Prop
  | done (keep : Array Bool) : Walk back none keep keep
  | step {position : Nat} {before : Option Nat} {keep marked kept : Array Bool}
      (mark : put? keep position true = some marked) (there : back[position]? = some before)
      (rest : Walk back before marked kept) : Walk back (some position) keep kept

/-- The scan and the walk from the end of the longest run result in a mask, which says for each
number whether it belongs to the run that is kept. -/
def Marks (values : List Nat) (mask : List Bool) : Prop :=
  ∃ found kept, scan values = some found ∧
    Walk found.back found.ends.back? (Array.replicate values.length false) kept ∧
    kept.toList = mask

end SessionReplay.Patience
