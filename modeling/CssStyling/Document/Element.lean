import CssStyling.Text.Ascii

namespace CssStyling

namespace Namespace

def html : String := "http://www.w3.org/1999/xhtml"
def svg : String := "http://www.w3.org/2000/svg"
def mathMl : String := "http://www.w3.org/1998/Math/MathML"
def xlink : String := "http://www.w3.org/1999/xlink"

end Namespace

structure Attribute where
  space : Option String
  name : String
  value : String
  deriving DecidableEq, Repr

namespace Attribute

def isNamed (space : Option String) (name : String) (a : Attribute) : Bool :=
  a.space == space && a.name == name

end Attribute

structure Element where
  space : Option String
  localName : String
  attributes : List Attribute
  deriving DecidableEq, Repr

namespace Element

def make (localName : String) (space : Option String) (attributes : List Attribute) : Element :=
  ⟨space, if space = some Namespace.html then Ascii.lower localName else localName, attributes⟩

def attribute? (e : Element) (space : Option String) (name : String) : Option String :=
  (e.attributes.find? (Attribute.isNamed space name)).map (·.value)

def attributesNamed (e : Element) (name : String) : List Attribute :=
  e.attributes.filter (·.name == name)

def id? (e : Element) : Option String :=
  e.attribute? none "id"

def classes (e : Element) : List String :=
  match e.attribute? none "class" with
  | some value => Ascii.words value
  | none => []

def assign (a : Attribute) : List Attribute → List Attribute
  | [] => [a]
  | b :: bs =>
      if b.isNamed a.space a.name then { b with value := a.value } :: bs else b :: assign a bs

def setAttribute (e : Element) (a : Attribute) : Element :=
  { e with attributes := assign a e.attributes }

def removeAttribute (e : Element) (space : Option String) (name : String) :
    Option Attribute × Element :=
  (e.attributes.find? (Attribute.isNamed space name),
    { e with attributes := e.attributes.eraseP (Attribute.isNamed space name) })

end Element

end CssStyling
