import SessionReplay.Capture.Basic
import SessionReplay.Proofs.Tree.Shape

/-!
The numbering of what a survey has seen. The census keeps each sighting together with the id that
it was given, so that the nodes of a capture can be traced back to the views.
-/

namespace SessionReplay.Capture

structure Numbered where
  sighting : Sighting
  id : NodeId

/-- The node that stands for what was seen. -/
def Numbered.node (entry : Numbered) : Node := { entry.sighting.face with id := entry.id }

def assign (sighting : Sighting) (registry : Identity.Registry) : Numbered × Identity.Registry :=
  (⟨sighting, (registry.idFor sighting.key).1⟩, (registry.idFor sighting.key).2)

def Settings.surveyor (settings : Settings) (source : View.Introspector) : Surveyor :=
  { source, rules := settings.rules, limits := settings.limits }

/-- What was seen, with its ids. -/
def census (settings : Settings) (source : View.Introspector) (registry : Identity.Registry)
    (root : ViewHandle) : Tree Numbered :=
  (((settings.surveyor source).survey root).1.mapAccum assign registry.beginTick).1

variable {settings : Settings} {source : View.Introspector} {registry : Identity.Registry}
variable {root : ViewHandle}

theorem map_sighting_census (registry : Identity.Registry) :
    (census settings source registry root).map Numbered.sighting =
      ((settings.surveyor source).survey root).1 :=
  Tree.map_mapAccum (fun _ _ => rfl) _ _

theorem map_node_census (tick : UInt64) :
    (census settings source registry root).map Numbered.node =
      (capture settings source registry root tick).tree := by
  have images := Tree.mapAccum_map assign Numbered.node
    ((settings.surveyor source).survey root).1 registry.beginTick
  exact (congrArg Prod.fst images).symm

end SessionReplay.Capture
