import CssStyling.Token.Diagnostic

namespace CssStyling

namespace SyntaxError

inductive Cause where
  | unexpectedToken
  | unexpectedEnd
  | emptySelector
  | danglingCombinator
  | expectedNamespaceSeparator
  | missingLocalName
  | unterminatedAttribute
  | invalidAttributeOperator
  | invalidAttributeValue
  | unexpectedFunction
  | unterminatedFunction
  deriving DecidableEq, Repr

namespace Cause

def message : Cause → String
  | unexpectedToken => "unexpected token"
  | unexpectedEnd => "unexpected end of input"
  | emptySelector => "empty selector"
  | danglingCombinator => "combinator without a following compound selector"
  | expectedNamespaceSeparator => "expected `|` between namespace and name"
  | missingLocalName => "namespace prefix without a local name"
  | unterminatedAttribute => "attribute selector is not closed"
  | invalidAttributeOperator => "invalid attribute operator"
  | invalidAttributeValue => "attribute value must be an identifier or string"
  | unexpectedFunction => "function token where none is allowed"
  | unterminatedFunction => "function arguments are not closed"

end Cause

end SyntaxError

structure SyntaxError where
  cause : SyntaxError.Cause
  token : Token
  position : Nat
  deriving Repr

namespace SyntaxError

def message (e : SyntaxError) : String :=
  "invalid selector: " ++ e.cause.message ++ " at token " ++ toString e.position ++
    " (" ++ e.token.diagnostic ++ ")"

end SyntaxError

end CssStyling
