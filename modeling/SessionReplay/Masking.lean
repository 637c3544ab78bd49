import Std.Data.ExtTreeMap

/-!
Which content is masked. A view may declare its masking or leave it to a named rule; the nearest
declaration that decides counts, and where none does, the kind of content.
-/

namespace SessionReplay

/-- What a view declares about itself and everything inside it. -/
inductive Masking where
  | masked
  | unmasked
  | custom (rule : String)
deriving DecidableEq, Inhabited, Repr

namespace Masking

inductive Content where
  | text
  | input
  | image
  | container
deriving DecidableEq, Inhabited, Repr

structure Defaults where
  text : Bool
  input : Bool
  image : Bool
  container : Bool
deriving DecidableEq, Repr

def Defaults.of (defaults : Defaults) : Content → Bool
  | .text => defaults.text
  | .input => defaults.input
  | .image => defaults.image
  | .container => defaults.container

/-- Only what the user types. -/
def Defaults.standard : Defaults := ⟨false, true, false, false⟩

def Defaults.everything : Defaults := ⟨true, true, true, false⟩

def Defaults.nothing : Defaults := ⟨false, false, false, false⟩

structure Rules where
  named : Std.ExtTreeMap String Bool := ∅
  defaults : Defaults := .standard
deriving DecidableEq

/-- A custom declaration whose rule is not known decides nothing. -/
def Rules.decide? (rules : Rules) : Masking → Option Bool
  | masked => some true
  | unmasked => some false
  | custom rule => rules.named[rule]?

/-- `declarations` runs from the view itself up to the root. -/
def Rules.resolve (rules : Rules) (content : Content) (declarations : List Masking) : Bool :=
  (declarations.findSome? rules.decide?).getD (rules.defaults.of content)

end Masking

end SessionReplay
