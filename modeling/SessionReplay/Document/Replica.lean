import SessionReplay.Document.Record
import Std.Data.ExtTreeMap

/-!
A replica of a document, kept up to date by records. It is flat: every node knows its parent and
the ids of its children, and is found by its id. A record that does not fit is refused. A subtree
is put in node by node, and when one of its ids turns out to be taken on the way, what was put in
before stays.
-/

namespace SessionReplay

inductive ReplayError where
  | unknownNode (id : NodeId)
  | unknownSibling (id : NodeId)
  | duplicateNode (id : NodeId)
  | notText (id : NodeId)
  | notElement (id : NodeId)
  | invalidRemove (id : NodeId)
deriving DecidableEq, Repr

namespace ReplayError

def id : ReplayError → NodeId
  | unknownNode id | unknownSibling id | duplicateNode id | notText id | notElement id
  | invalidRemove id => id

def message : ReplayError → String
  | unknownNode id => "unknown node " ++ id.text
  | unknownSibling id => "unknown next sibling " ++ id.text
  | duplicateNode id => "node " ++ id.text ++ " already exists"
  | notText id => "node " ++ id.text ++ " is not a text node"
  | notElement id => "node " ++ id.text ++ " is not an element"
  | invalidRemove id => "cannot remove node " ++ id.text

end ReplayError

namespace Replica

structure Entry where
  kind : Kind
  masked : Bool
  parent : Option NodeId
  children : List NodeId
deriving DecidableEq

abbrev Entries := Std.ExtTreeMap NodeId Entry

end Replica

structure Replica where
  root : NodeId
  entries : Replica.Entries
deriving DecidableEq

namespace Replica

/-- A change that was refused on the way leaves behind the entries that it had reached. -/
abbrev Edited := Entries × Option ReplayError

mutual

def insert (parent : Option NodeId) : Tree Node → Entries → Edited
  | .node data children, entries =>
      if entries.contains data.id then (entries, some (.duplicateNode data.id))
      else
        insertAll data.id children
          (entries.insert data.id ⟨data.kind, data.masked, parent, children.map (·.data.id)⟩)

def insertAll (parent : NodeId) : List (Tree Node) → Entries → Edited
  | [], entries => (entries, none)
  | tree :: trees, entries =>
      match insert (some parent) tree entries with
      | (entries, none) => insertAll parent trees entries
      | refused => refused

end

/-- Takes out the pending nodes and all below them. -/
def dropAll (entries : Entries) : (pending : List NodeId) → Entries
  | [] => entries
  | id :: pending =>
      if present : id ∈ entries then
        dropAll (entries.erase id) (entries[id].children ++ pending)
      else dropAll entries pending
termination_by pending => (entries.size, pending.length)
decreasing_by
  · refine Prod.Lex.left _ _ ?_
    have inhabited : entries.size ≠ 0 := by
      intro empty
      rw [← Std.ExtTreeMap.eq_empty_iff_size_eq_zero] at empty
      simp [empty] at present
    rw [Std.ExtTreeMap.size_erase, if_pos (Std.ExtTreeMap.contains_iff_mem.mpr present)]
    omega
  · exact Prod.Lex.right _ (by simp)

/-- Where the children get a new one: in front of `next`, or at the end. -/
def insertIndex (children : List NodeId) : Option NodeId → Except ReplayError Nat
  | none => .ok children.length
  | some next =>
      match children.idxOf? next with
      | some index => .ok index
      | none => .error (.unknownSibling next)

def applyAdd (parent : NodeId) (next : Option NodeId) (subtree : Tree Node) (entries : Entries) :
    Edited :=
  match entries[parent]? with
  | none => (entries, some (.unknownNode parent))
  | some entry =>
      match insertIndex entry.children next with
      | .error refusal => (entries, some refusal)
      | .ok index =>
          match subtree.find? (entries.contains ·.id) with
          | some taken => (entries, some (.duplicateNode taken.data.id))
          | none =>
              match insert (some parent) subtree entries with
              | (entries, none) =>
                  (entries.modify parent fun entry =>
                    { entry with children := entry.children.insertIdx index subtree.data.id }, none)
              | refused => refused

def applyRemove (parent id : NodeId) (entries : Entries) : Edited :=
  match entries[id]? with
  | none => (entries, some (.unknownNode id))
  | some entry =>
      if entry.parent = some parent then
        (dropAll (entries.modify parent fun entry =>
          { entry with children := entry.children.filter (· ≠ id) }) [id], none)
      else (entries, some (.invalidRemove id))

def applyText (id : NodeId) (content : String) (masked : Bool) (entries : Entries) : Edited :=
  match entries[id]? with
  | none => (entries, some (.unknownNode id))
  | some entry =>
      match entry.kind with
      | .text _ isStyle =>
          (entries.insert id { entry with kind := .text content isStyle, masked }, none)
      | _ => (entries, some (.notText id))

def applyAttributes (id : NodeId) (masked : Bool) (attributes style : KeyDelta)
    (entries : Entries) : Edited :=
  match entries[id]? with
  | none => (entries, some (.unknownNode id))
  | some entry =>
      match entry.kind with
      | .element element =>
          let changed : Element :=
            { element with
              attributes := attributes.apply element.attributes
              style := style.apply element.style }
          (entries.insert id { entry with kind := .element changed, masked }, none)
      | _ => (entries, some (.notElement id))

def applyRecord : Record → Entries → Edited
  | .add parent next subtree, entries => applyAdd parent next subtree entries
  | .remove parent id, entries => applyRemove parent id entries
  | .text id content masked, entries => applyText id content masked entries
  | .attributes id masked attributes style, entries =>
      applyAttributes id masked attributes style entries

/-- Stops at the first record that is refused. -/
def applyRecords : List Record → Entries → Edited
  | [], entries => (entries, none)
  | record :: records, entries =>
      match applyRecord record entries with
      | (entries, none) => applyRecords records entries
      | refused => refused

def apply (replica : Replica) (records : List Record) : Replica × Option ReplayError :=
  let (entries, refusal) := applyRecords records replica.entries
  ({ replica with entries }, refusal)

/-- Of a node whose id is taken already, and of all after it, nothing is kept. -/
def ofTree (tree : Tree Node) : Replica := ⟨tree.data.id, (insert none tree ∅).1⟩

def size (replica : Replica) : Nat := replica.entries.size

def isEmpty (replica : Replica) : Bool := replica.entries.isEmpty

end Replica

end SessionReplay
