import CssStyling.Store.Activity

namespace CssStyling.StyleM

def write (e : NodeId) (name : String)
    (change : PropertyDefinition → PropertySlot → Except ValueError (Bool × PropertySlot)) :
    StyleM Bool := do
  let id ← propertyId name
  let s ← store
  if !s.contains e then throw (.unknownElement e)
  let p ← definition id
  let slot := s.slotAt e id
  match change p slot with
  | .error error =>
      modifyStore (·.modifySlot e id fun _ => slot)
      throw (.value error)
  | .ok (changed, slot') =>
      modifyStore (·.modifySlot e id fun _ => slot')
      if changed then
        modifyStore (·.invalidateProperty e id)
        notify ⟨e, p.name, slot.assigned, slot'.assigned, p.dirt⟩
      return changed

def assign (e : NodeId) (name : String) (value : Value) (provenance : Option Provenance) :
    StyleM Bool :=
  write e name fun p slot => slot.assign p value provenance

def cascade (e : NodeId) (name : String) (source : PropertySlot) : StyleM Bool :=
  write e name fun p slot => slot.cascade p source

def overwrite (e : NodeId) (name : String) (source : PropertySlot) : StyleM Bool :=
  write e name fun p slot => slot.overwrite p source

def reset (e : NodeId) (name : String) : StyleM Bool :=
  write e name fun _ slot => .ok slot.reset

end CssStyling.StyleM
