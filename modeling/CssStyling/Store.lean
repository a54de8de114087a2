import Std.Data.ExtTreeMap
import CssStyling.Document
import CssStyling.Property.Registry
import CssStyling.Property.Slot

namespace CssStyling

structure StyledElement where
  parent : Option NodeId
  slots : Std.ExtTreeMap PropertyId PropertySlot

abbrev SubscriptionId := Nat

structure Store where
  registry : PropertyRegistry
  elements : Std.ExtTreeMap NodeId StyledElement
  listeners : List SubscriptionId
  nextSubscription : SubscriptionId

inductive StyleError where
  | value (e : ValueError)
  | resolution (e : ResolutionError)
  | unknownProperty (name : String)
  | unknownElement (element : NodeId)
  | invalidParent (element parent : NodeId)
  deriving DecidableEq, Repr

namespace StyleError

def message : StyleError → String
  | value e => e.message
  | resolution e => e.message
  | unknownProperty name => "unknown property `" ++ name ++ "`"
  | unknownElement element => "element " ++ element.text ++ " is not in the style store"
  | invalidParent element parent =>
      parent.text ++ " cannot become the parent of " ++ element.text

end StyleError

namespace StyledElement

def empty : StyledElement :=
  ⟨none, ∅⟩

def slot? (e : StyledElement) (id : PropertyId) : Option PropertySlot :=
  e.slots[id]?

def modifySlot (e : StyledElement) (id : PropertyId) (f : PropertySlot → PropertySlot) :
    StyledElement :=
  { e with slots := e.slots.alter id fun s => some (f (s.getD .empty)) }

def mapSlots (e : StyledElement) (f : PropertySlot → PropertySlot) : StyledElement :=
  { e with slots := e.slots.map fun _ => f }

end StyledElement

namespace Store

def ofRegistry (registry : PropertyRegistry) : Store :=
  ⟨registry, ∅, [], 0⟩

instance : Inhabited Store :=
  ⟨ofRegistry .empty⟩

def size (s : Store) : Nat :=
  s.elements.size

def isEmpty (s : Store) : Bool :=
  s.elements.isEmpty

def element? (s : Store) (e : NodeId) : Option StyledElement :=
  s.elements[e]?

def contains (s : Store) (e : NodeId) : Bool :=
  (s.element? e).isSome

def parent? (s : Store) (e : NodeId) : Option NodeId :=
  (s.element? e).bind (·.parent)

def slot? (s : Store) (e : NodeId) (id : PropertyId) : Option PropertySlot :=
  (s.element? e).bind (·.slot? id)

def slotAt (s : Store) (e : NodeId) (id : PropertyId) : PropertySlot :=
  (s.slot? e id).getD .empty

def slots (s : Store) (e : NodeId) : List (PropertyId × PropertySlot) :=
  match s.element? e with
  | some element => element.slots.toList
  | none => []

def property? (s : Store) (e : NodeId) (name : String) : Option PropertySlot :=
  (s.registry.id? name).bind (s.slot? e)

def assigned? (s : Store) (e : NodeId) (name : String) : Option Value :=
  (s.property? e name).map (·.assigned)

def assigned (s : Store) (e : NodeId) (id : PropertyId) : Value :=
  (s.slotAt e id).assigned

def modifyElement (s : Store) (e : NodeId) (f : StyledElement → StyledElement) : Store :=
  { s with elements := s.elements.modify e f }

/-- An element that the store does not know would come in as a root by this. -/
def modifySlot (s : Store) (e : NodeId) (id : PropertyId) (f : PropertySlot → PropertySlot) :
    Store :=
  { s with
    elements := s.elements.alter e fun element =>
      some ((element.getD .empty).modifySlot id f) }

def addDependent (s : Store) (e : NodeId) (id : PropertyId) (dependent : NodeId) : Store :=
  s.modifySlot e id (·.addDependent dependent)

def diagnostic (s : Store) : String :=
  "StyleStore \x7b properties: " ++ toString s.registry.size ++ ", elements: " ++
    toString s.size ++ ", listeners: " ++ toString s.listeners.length ++ " \x7d"

end Store

end CssStyling
