import SessionReplay.Text.Hex

/-!
Names for things. A view is named by the handle its host gave it, a node of the recorded document
by a number of our own. One view can stand for several nodes, so a node belongs to a `Key`: a view
together with the role it plays.
-/

namespace SessionReplay

/-- The number of a node in the recorded document. -/
structure NodeId where
  val : UInt32
deriving DecidableEq, Inhabited, Repr

namespace NodeId

instance : Ord NodeId := ⟨compareOn NodeId.val⟩

instance : Std.TransOrd NodeId := inferInstanceAs (Std.TransCmp (compareOn NodeId.val))

instance : Std.LawfulEqOrd NodeId where
  eq_of_compare {left right} same := by
    have values : left.val = right.val := Std.LawfulEqOrd.eq_of_compare same
    cases left; cases right; simp_all

/-- The form used in messages. -/
def text (id : NodeId) : String := "#" ++ toString id.val.toNat

/-- The form used for inspection. -/
def label (id : NodeId) : String := "NodeId(" ++ toString id.val.toNat ++ ")"

def first : NodeId := ⟨1⟩

def last : NodeId := ⟨4294967295⟩

end NodeId

/-- A handle as the host counts: a slot in the low half and the slot's generation in the high
half. -/
structure ViewHandle where
  val : UInt64
deriving DecidableEq, Inhabited, Repr

namespace ViewHandle

instance : Ord ViewHandle := ⟨compareOn ViewHandle.val⟩

instance : Std.TransOrd ViewHandle := inferInstanceAs (Std.TransCmp (compareOn ViewHandle.val))

instance : Std.LawfulEqOrd ViewHandle where
  eq_of_compare {left right} same := by
    have values : left.val = right.val := Std.LawfulEqOrd.eq_of_compare same
    cases left; cases right; simp_all

def slot (view : ViewHandle) : Nat := view.val.toNat % UInt32.size

def generation (view : ViewHandle) : Nat := view.val.toNat / UInt32.size

def ofParts (slot generation : Nat) : ViewHandle :=
  ⟨UInt64.ofNat (generation * UInt32.size + slot)⟩

def label (view : ViewHandle) : String :=
  "ViewHandle(0x" ++ String.ofList (Text.hex view.val.toNat) ++ ")"

end ViewHandle

/-- What a node stands for: the document whose root view this is, the view itself, or the text
inside it. -/
inductive Role where
  | document
  | view
  | text
deriving DecidableEq, Inhabited, Repr

instance : Ord Role := ⟨compareOn Role.ctorIdx⟩

instance : Std.TransOrd Role := inferInstanceAs (Std.TransCmp (compareOn Role.ctorIdx))

instance : Std.LawfulEqOrd Role where
  eq_of_compare {left right} same := by
    have indices : left.ctorIdx = right.ctorIdx := Std.LawfulEqOrd.eq_of_compare same
    cases left <;> cases right <;> simp_all [Role.ctorIdx]

namespace Identity

structure Key where
  view : ViewHandle
  role : Role
deriving DecidableEq, Inhabited, Repr

namespace Key

instance : Ord Key := ⟨compareLex (compareOn Key.view) (compareOn Key.role)⟩

instance : Std.TransOrd Key :=
  inferInstanceAs (Std.TransCmp (compareLex (compareOn Key.view) (compareOn Key.role)))

instance : Std.LawfulEqOrd Key where
  eq_of_compare {left right} same := by
    have both := compareLex_eq_eq.mp same
    have views : left.view = right.view := Std.LawfulEqOrd.eq_of_compare both.1
    have roles : left.role = right.role := Std.LawfulEqOrd.eq_of_compare both.2
    cases left; cases right; simp_all

end Key

end Identity

end SessionReplay
