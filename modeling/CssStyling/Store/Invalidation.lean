import CssStyling.Store

namespace CssStyling.Store

/-- Every element is listed as a dependent of one parent at most, so that there are no more visits
than elements. -/
def forget (s : Store) (id : PropertyId) : Nat → List NodeId → Store
  | 0, _ => s
  | _, [] => s
  | visits + 1, e :: rest =>
      match s.slot? e id with
      | none => s.forget id visits rest
      | some slot =>
          (s.modifySlot e id PropertySlot.drain).forget id visits (slot.dependents ++ rest)

def invalidateProperty (s : Store) (e : NodeId) (id : PropertyId) : Store :=
  s.forget id (s.size + 1) [e]

def invalidateElement (s : Store) (e : NodeId) : Store :=
  ((s.slots e).map Prod.fst).foldl (fun s id => s.invalidateProperty e id) s

def invalidateAll (s : Store) : Store :=
  { s with elements := s.elements.map fun _ element => element.mapSlots PropertySlot.drain }

def dropDependent (s : Store) (parent e : NodeId) : Store :=
  s.modifyElement parent (·.mapSlots (·.dropDependent e))

end CssStyling.Store
