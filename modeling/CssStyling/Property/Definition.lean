import CssStyling.Property.Percentage

namespace CssStyling

abbrev Dirt := BitVec 4

namespace Dirt

def layout : Dirt := 1
def paint : Dirt := 2
def text : Dirt := 4
def stacking : Dirt := 8

end Dirt

inductive ValueError where
  | kindNotAllowed (property : String) (kind : ValueKind)
  | keywordNotAllowed (property word : String)
  deriving DecidableEq, Repr

namespace ValueError

def message : ValueError → String
  | kindNotAllowed property kind => "`" ++ property ++ "` does not accept " ++ kind.name ++ " values"
  | keywordNotAllowed property word =>
      "`" ++ property ++ "` does not accept the keyword `" ++ word ++ "`"

end ValueError

structure PropertyDefinition where
  name : String
  initial : Value
  inherited : Bool
  allowed : KindSet
  disallowed : KindSet
  keywords : Option (List String)
  percentage : Option PercentageResolver
  dirt : Dirt

namespace PropertyDefinition

def make (name : String) (start : Value) : PropertyDefinition :=
  ⟨Ascii.lower name, start, false, .empty, .empty, none, none, 0⟩

def inheriting (p : PropertyDefinition) : PropertyDefinition :=
  { p with inherited := true }

def allow (p : PropertyDefinition) (kinds : KindSet) : PropertyDefinition :=
  { p with allowed := p.allowed.union kinds }

def disallow (p : PropertyDefinition) (kinds : KindSet) : PropertyDefinition :=
  { p with disallowed := p.disallowed.union kinds }

def withKeywords (p : PropertyDefinition) (words : List String) : PropertyDefinition :=
  { p with
    allowed := p.allowed.union (.ofKind .keyword)
    keywords := some (words.map Ascii.lower) }

def withResolver (p : PropertyDefinition) (resolver : PercentageResolver) : PropertyDefinition :=
  { p with
    allowed := p.allowed.union (.ofKind .percentage)
    percentage := some resolver }

def withPercentages (p : PropertyDefinition) (base : PercentageBase) : PropertyDefinition :=
  p.withResolver base.resolver

def withDirt (p : PropertyDefinition) (dirt : Dirt) : PropertyDefinition :=
  { p with dirt := p.dirt ||| dirt }

def effectiveKinds (p : PropertyDefinition) : KindSet :=
  (p.allowed.union .cssWide).diff p.disallowed

def acceptsWord (p : PropertyDefinition) (word : String) : Bool :=
  match p.keywords with
  | none => true
  | some words => words.any (Ascii.sameIgnoringCase · word)

def check (p : PropertyDefinition) (value : Value) : Except ValueError Unit :=
  if p.effectiveKinds.contains value.kind then
    match value with
    | .keyword word =>
        if p.acceptsWord word then .ok () else .error (.keywordNotAllowed p.name word)
    | _ => .ok ()
  else .error (.kindNotAllowed p.name value.kind)

end PropertyDefinition

end CssStyling
