import CssStyling.Property.Definition
import CssStyling.Selector

namespace CssStyling

inductive Origin where
  | userAgent
  | user
  | author
  | inline
  deriving DecidableEq, Repr

structure Provenance where
  origin : Origin
  source : Nat
  selector : Option Complex
  specificity : Specificity
  deriving BEq, Repr

namespace Provenance

def make (origin : Origin) (source : Nat) : Provenance :=
  ⟨origin, source, none, .zero⟩

def withSelector (p : Provenance) (s : Complex) : Provenance :=
  { p with selector := some s, specificity := s.specificity }

end Provenance

structure PropertySlot where
  assigned : Value
  provenance : Option Provenance
  specified : Option Value
  computed : Option Value
  dependents : List Key
  deriving Repr

namespace PropertySlot

def empty : PropertySlot :=
  ⟨.unset, none, none, none, []⟩

instance : Inhabited PropertySlot :=
  ⟨empty⟩

def ofValue (value : Value) (provenance : Option Provenance) : PropertySlot :=
  { empty with assigned := value, provenance }

def invalidate (s : PropertySlot) : PropertySlot :=
  { s with specified := none, computed := none }

def drain (s : PropertySlot) : PropertySlot :=
  { s.invalidate with dependents := [] }

def assign (s : PropertySlot) (p : PropertyDefinition) (value : Value)
    (provenance : Option Provenance) : Except ValueError (Bool × PropertySlot) :=
  match p.check value with
  | .error e => .error e
  | .ok () =>
      if value == s.assigned then .ok (false, { s with provenance })
      else .ok (true, { s with assigned := value, provenance }.invalidate)

def cascade (s : PropertySlot) (p : PropertyDefinition) (source : PropertySlot) :
    Except ValueError (Bool × PropertySlot) :=
  if !s.assigned.isUnset || source.assigned.isUnset then .ok (false, s)
  else s.assign p source.assigned source.provenance

def overwrite (s : PropertySlot) (p : PropertyDefinition) (source : PropertySlot) :
    Except ValueError (Bool × PropertySlot) :=
  if s.assigned == source.assigned then .ok (false, s)
  else s.assign p source.assigned source.provenance

def reset (s : PropertySlot) : Bool × PropertySlot :=
  if s.assigned.isUnset then (false, { s with provenance := none })
  else (true, { s with assigned := .unset, provenance := none }.invalidate)

def addDependent (s : PropertySlot) (element : Key) : PropertySlot :=
  if s.dependents.contains element then s
  else { s with dependents := s.dependents ++ [element] }

def dropDependent (s : PropertySlot) (element : Key) : PropertySlot :=
  { s with dependents := s.dependents.filter (· != element) }

end PropertySlot

end CssStyling
