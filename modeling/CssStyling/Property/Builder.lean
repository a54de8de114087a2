import Std.Data.HashMap
import CssStyling.Property.Registry

namespace CssStyling

structure RegistryBuilder where
  definitions : Array PropertyDefinition
  numbers : Std.HashMap String PropertyId
  warnings : List String

namespace RegistryBuilder

def empty : RegistryBuilder :=
  ⟨#[], ∅, []⟩

def define (b : RegistryBuilder) (p : PropertyDefinition) : RegistryBuilder :=
  match b.numbers[p.name]? with
  | some id =>
      { b with
        definitions := b.definitions.setIfInBounds id p
        warnings := b.warnings ++ [PropertyRegistry.redefinitionWarning p.name] }
  | none =>
      { b with
        definitions := b.definitions.push p
        numbers := b.numbers.insert p.name b.definitions.size }

def ofList (ps : List PropertyDefinition) : RegistryBuilder :=
  ps.foldl define empty

def id? (b : RegistryBuilder) (name : String) : Option PropertyId :=
  match b.numbers[name]? with
  | some id => some id
  | none => b.numbers[Ascii.lower name]?

def get? (b : RegistryBuilder) (id : PropertyId) : Option PropertyDefinition :=
  b.definitions[id]?

end RegistryBuilder

end CssStyling
