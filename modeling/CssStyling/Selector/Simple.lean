import CssStyling.Token

namespace CssStyling

inductive AttributeOperator where
  | equals
  | includes
  | dashMatch
  | startsWith
  | endsWith
  | contains
  deriving DecidableEq, Repr

inductive Simple where
  | type (pattern : NamespacePattern) (localName : String)
  | universal (pattern : NamespacePattern)
  | identifier (id : String)
  | className (name : String)
  | attributeTest (pattern : NamespacePattern) (name : String)
      (test : Option (AttributeOperator × String))
  | pseudoClass (name : String) (arguments : Option (List Token))
  | pseudoElement (name : String) (arguments : Option (List Token))
  deriving BEq, Repr

end CssStyling
