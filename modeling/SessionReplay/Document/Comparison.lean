import SessionReplay.Document.LongestRun
import SessionReplay.Document.Record

/-!
The changes that lead from one document to another. Below a node that stays, a child stays when
both documents have it there with the same shape and it belongs to the longest run of such
children whose order is unchanged. The others are removed and added again. All removals come
first, then the additions, then the new texts and the new attributes; each parent's additions go
from its last child to its first, so that the sibling to insert before is always there already.
-/

namespace SessionReplay.Document

/-- Two documents whose roots cannot turn into each other. -/
structure Mismatch where
  previous : NodeId
  current : NodeId
deriving DecidableEq, Repr

def Mismatch.message (mismatch : Mismatch) : String :=
  if mismatch.previous = mismatch.current then
    "root " ++ mismatch.current.text ++ " changed kind"
  else
    "root changed from " ++ mismatch.previous.text ++ " to " ++ mismatch.current.text

/-- Records by kind. -/
structure Changes where
  removes : List Record := []
  adds : List Record := []
  texts : List Record := []
  attributes : List Record := []

namespace Changes

def append (first second : Changes) : Changes where
  removes := first.removes ++ second.removes
  adds := first.adds ++ second.adds
  texts := first.texts ++ second.texts
  attributes := first.attributes ++ second.attributes

instance : Append Changes := ⟨append⟩

def records (changes : Changes) : List Record :=
  changes.removes ++ changes.adds ++ changes.texts ++ changes.attributes

end Changes

/-- The new attributes of an element. Masked values are hidden on the way, so when the masking
changes every value is stated again. -/
def attributeDelta (flipped : Bool) (previous current : Attributes) : KeyDelta :=
  if flipped then (KeyDelta.between previous current).restate current
  else KeyDelta.between previous current

/-- The changes of one node that stays. -/
def faceChanges (previous current : Node) : Changes :=
  let flipped := previous.masked != current.masked
  match previous.kind, current.kind with
  | .text old _, .text new _ =>
      if old ≠ new || flipped then { texts := [.text current.id new current.masked] } else {}
  | .element old, .element new =>
      let attributes := attributeDelta flipped old.attributes new.attributes
      let style := KeyDelta.between old.style new.style
      if !attributes.isEmpty || !style.isEmpty || flipped then
        { attributes := [.attributes current.id current.masked attributes style] }
      else {}
  | _, _ => {}

/-- The position of the child that may stay as `child`: the last one with its id, if that has the
same shape. -/
def counterpart? (previous : List (Tree Node)) (child : Tree Node) : Option Nat :=
  match previous.zipIdx.reverse.find? fun (before, _) => before.data.id = child.data.id with
  | some (before, position) =>
      if before.data.kind.sameShape child.data.kind then some position else none
  | none => none

/-- Takes the position from each item that has one where the mask does not keep it. -/
def keepMasked : List (Option Nat) → List Bool → List (Option Nat)
  | [], _ => []
  | none :: items, mask => none :: keepMasked items mask
  | some position :: items, true :: mask => some position :: keepMasked items mask
  | some _ :: items, false :: mask => none :: keepMasked items mask
  | some _ :: items, [] => none :: keepMasked items []

/-- For each current child the former position of the child that stays as it. -/
def staying (previous current : List (Tree Node)) : List (Option Nat) :=
  let found := current.map (counterpart? previous)
  keepMasked found (LongestRun.mask (found.filterMap id))

def removals (parent : NodeId) (previous : List (Tree Node)) (stay : List (Option Nat)) :
    List Record :=
  previous.zipIdx.filterMap fun (child, position) =>
    if some position ∈ stay then none else some (.remove parent child.data.id)

/-- The children that do not stay, from the last to the first. -/
def additions (parent : NodeId) : List (Tree Node) → List (Option Nat) → List Record
  | child :: children, none :: stay =>
      additions parent children stay ++ [.add parent (children.head?.map (·.data.id)) child]
  | _ :: children, some _ :: stay => additions parent children stay
  | _, _ => []

mutual

def changesAt (previous : Tree Node) : (current : Tree Node) → Changes
  | .node now children =>
      let stay := staying previous.children children
      faceChanges previous.data now ++
        { removes := removals now.id previous.children stay
          adds := additions now.id children stay } ++
        changesBelow (stay.map fun position => position.bind (previous.children[·]?)) children

/-- Compares each child that stays with what it was. -/
def changesBelow : (previous : List (Option (Tree Node))) → (current : List (Tree Node)) → Changes
  | some before :: previous, child :: children =>
      changesAt before child ++ changesBelow previous children
  | none :: previous, _ :: children => changesBelow previous children
  | _, _ => {}

end

def changes (previous current : Tree Node) : Except Mismatch (List Record) :=
  if previous.data.id = current.data.id ∧ previous.data.kind.sameShape current.data.kind then
    .ok (changesAt previous current).records
  else
    .error ⟨previous.data.id, current.data.id⟩

end SessionReplay.Document
