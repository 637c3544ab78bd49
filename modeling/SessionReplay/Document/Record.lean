import SessionReplay.Document.Node

/-!
Mutation records: single changes of a document.
-/

namespace SessionReplay

inductive Record where
  /-- Puts a subtree among the children of `parent`, in front of the sibling `next` or at the
  end. -/
  | add (parent : NodeId) (next : Option NodeId) (subtree : Tree Node)
  | remove (parent id : NodeId)
  | text (id : NodeId) (content : String) (masked : Bool)
  | attributes (id : NodeId) (masked : Bool) (attributes style : KeyDelta)

namespace Record

/-- The node that a record adds, removes or changes. -/
def target : Record → NodeId
  | add _ _ subtree => subtree.data.id
  | remove _ id => id
  | text id _ _ => id
  | attributes id _ _ _ => id

/-- How many records there are of each kind. -/
structure Counts where
  removes : Nat
  adds : Nat
  texts : Nat
  attributes : Nat
deriving DecidableEq, Repr

def isRemove : Record → Bool
  | remove .. => true
  | _ => false

def isAdd : Record → Bool
  | add .. => true
  | _ => false

def isText : Record → Bool
  | text .. => true
  | _ => false

def isAttributes : Record → Bool
  | attributes .. => true
  | _ => false

def count (records : List Record) : Counts where
  removes := records.countP isRemove
  adds := records.countP isAdd
  texts := records.countP isText
  attributes := records.countP isAttributes

def Counts.total (counts : Counts) : Nat :=
  counts.removes + counts.adds + counts.texts + counts.attributes

theorem total_count (records : List Record) : (count records).total = records.length := by
  induction records with
  | nil => rfl
  | cons record records induction =>
      simp only [count, Counts.total] at induction
      cases record <;>
        simp only [count, Counts.total, List.countP_cons, isRemove, isAdd, isText, isAttributes,
          List.length_cons, if_true, Bool.false_eq_true, if_false] <;>
        omega

end Record

end SessionReplay
