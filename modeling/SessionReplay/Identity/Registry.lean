import SessionReplay.Identity.Key
import Std.Data.ExtTreeMap

/-!
The registry hands out node ids. A key keeps its id from one tick to the next as long as every
tick in between asks for it; a key that was not asked for during a tick is dropped, and when it
comes back it gets a new id. Ids are counted upwards and are not used again until a reset. When
the last one has been given away the registry is exhausted.
-/

namespace SessionReplay.Identity

structure Entry where
  id : NodeId
  /-- Whether the key was asked for in the current tick. -/
  live : Bool
deriving DecidableEq, Repr

structure Registry where
  entries : Std.ExtTreeMap Key Entry
  next : NodeId
  /-- How many keys have been dropped. -/
  retired : Nat
  exhausted : Bool
deriving DecidableEq

namespace Registry

def startingAt (first : NodeId) : Registry := ⟨∅, first, 0, false⟩

def new : Registry := startingAt .first

instance : Inhabited Registry := ⟨new⟩

/-- The id of a key, a new one if it has none. After the last id the counter stays where it is. -/
def idFor (registry : Registry) (key : Key) : NodeId × Registry :=
  match registry.entries[key]? with
  | some entry =>
      (entry.id, { registry with entries := registry.entries.insert key ⟨entry.id, true⟩ })
  | none =>
      let entries := registry.entries.insert key ⟨registry.next, true⟩
      if registry.next = .last then
        (registry.next, { registry with entries, exhausted := true })
      else
        (registry.next, { registry with entries, next := ⟨registry.next.val + 1⟩ })

def get? (registry : Registry) (key : Key) : Option NodeId :=
  registry.entries[key]?.map Entry.id

def beginTick (registry : Registry) : Registry :=
  { registry with entries := registry.entries.map fun _ entry => { entry with live := false } }

/-- Drops the keys that were not asked for, and counts them. -/
def endTick (registry : Registry) : Nat × Registry :=
  let entries := registry.entries.filter fun _ entry => entry.live
  let evicted := registry.entries.size - entries.size
  (evicted, { registry with entries, retired := registry.retired + evicted })

def reset (_registry : Registry) : Registry := new

def size (registry : Registry) : Nat := registry.entries.size

def isEmpty (registry : Registry) : Bool := registry.entries.isEmpty

end Registry

end SessionReplay.Identity
