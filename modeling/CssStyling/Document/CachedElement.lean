import CssStyling.Document.Element

namespace CssStyling

structure CachedElement extends Element where
  cachedId : Option String
  cachedClasses : List String
  deriving DecidableEq, Repr

inductive AttributeEdit where
  | set (a : Attribute)
  | remove (space : Option String) (name : String)
  deriving DecidableEq, Repr

namespace CachedElement

def refresh (e : Element) : CachedElement :=
  { e with cachedId := e.id?, cachedClasses := e.classes }

def make (localName : String) (space : Option String) (attributes : List Attribute) :
    CachedElement :=
  refresh (Element.make localName space attributes)

def setAttribute (e : CachedElement) (a : Attribute) : CachedElement :=
  refresh (e.toElement.setAttribute a)

def removeAttribute (e : CachedElement) (space : Option String) (name : String) :
    Option Attribute × CachedElement :=
  match e.toElement.removeAttribute space name with
  | (none, _) => (none, e)
  | (some a, rest) => (some a, refresh rest)

def edit (e : CachedElement) : AttributeEdit → CachedElement
  | .set a => e.setAttribute a
  | .remove space name => (e.removeAttribute space name).2

end CachedElement

namespace Element

def edit (e : Element) : AttributeEdit → Element
  | .set a => e.setAttribute a
  | .remove space name => (e.removeAttribute space name).2

end Element

end CssStyling
