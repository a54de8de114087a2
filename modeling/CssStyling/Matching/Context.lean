import CssStyling.Document.Traversal
import CssStyling.Token

namespace CssStyling

inductive LetterCase where
  | sensitive
  | asciiInsensitive
  deriving DecidableEq, Repr

namespace LetterCase

def same : LetterCase → String → String → Bool
  | sensitive, s, t => s == t
  | asciiInsensitive, s, t => Ascii.sameIgnoringCase s t

end LetterCase

inductive CompatibilityMode where
  | noQuirks
  | limitedQuirks
  | quirks
  deriving DecidableEq, Repr

namespace CompatibilityMode

def nameCase : CompatibilityMode → LetterCase
  | quirks => .asciiInsensitive
  | noQuirks => .sensitive
  | limitedQuirks => .sensitive

end CompatibilityMode

structure Host where
  attributeValues : Element → String → List String
  pseudoClass : Element → String → Option (List Token) → Bool

namespace Host

def isLink (e : Element) : Bool :=
  (e.localName == "a" || e.localName == "area") && (e.attribute? none "href").isSome

def full : Host where
  attributeValues e name := (e.attributesNamed name).map (·.value)
  pseudoClass e name arguments :=
    match name, arguments with
    | "link", none => isLink e
    | "any-link", none => isLink e
    | _, _ => false

def basic : Host where
  attributeValues e name := (e.attribute? none name).toList
  pseudoClass _ _ _ := false

end Host

inductive Scope where
  | here (id : NodeId)
  | elsewhere (id : NodeId)
  deriving DecidableEq, Repr

namespace Scope

def isElement (d : Document) : Scope → Bool
  | here id => d.isElement id
  | elsewhere _ => true

instance : Coe (Option NodeId) (Option Scope) :=
  ⟨Option.map here⟩

end Scope

structure MatchingContext where
  scope : Option Scope
  namespaces : List (String × String)
  defaultNamespace : Option String
  mode : CompatibilityMode
  host : Host

namespace MatchingContext

def standard : MatchingContext :=
  ⟨none, [], none, .noQuirks, .full⟩

instance : Inhabited MatchingContext :=
  ⟨standard⟩

def namespace? (c : MatchingContext) (label : String) : Option String :=
  c.namespaces.lookup label

def scopeElement? (c : MatchingContext) (d : Document) : Option Scope :=
  c.scope.filter (·.isElement d)

end MatchingContext

end CssStyling
