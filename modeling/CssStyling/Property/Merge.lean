import CssStyling.Property.Slot

namespace CssStyling

abbrev SlotM := EStateM ValueError PropertySlot

namespace SlotM

def check (p : PropertyDefinition) (value : Value) : SlotM Unit :=
  match p.check value with
  | .ok () => return ()
  | .error e => throw e

def assign (p : PropertyDefinition) (value : Value) (provenance : Option Provenance) :
    SlotM Bool := do
  check p value
  modify fun s => { s with provenance }
  if value == (← get).assigned then
    return false
  modify fun s => { s with assigned := value }
  modify (·.invalidate)
  return true

def cascade (p : PropertyDefinition) (source : PropertySlot) : SlotM Bool := do
  if !(← get).assigned.isUnset || source.assigned.isUnset then
    return false
  assign p source.assigned source.provenance

def overwrite (p : PropertyDefinition) (source : PropertySlot) : SlotM Bool := do
  if (← get).assigned == source.assigned then
    return false
  assign p source.assigned source.provenance

def answer : EStateM.Result ValueError PropertySlot Bool → Except ValueError Bool
  | .ok changed _ => .ok changed
  | .error e _ => .error e

def slot : EStateM.Result ValueError PropertySlot Bool → PropertySlot
  | .ok _ s => s
  | .error _ s => s

def mergeAll (merge : PropertySlot → SlotM Bool) :
    List PropertySlot → PropertySlot → List (Except ValueError Bool) × PropertySlot
  | [], s => ([], s)
  | source :: sources, s =>
      let (answers, s') := mergeAll merge sources (slot (merge source s))
      (answer (merge source s) :: answers, s')

end SlotM

end CssStyling
