import CssStyling.Matching.Context
import CssStyling.Matching.Nth
import CssStyling.Selector.Simple

namespace CssStyling

namespace AttributeOperator

def occursIn (word : List Char) : List Char → Bool
  | [] => word.isEmpty
  | c :: cs => word.isPrefixOf (c :: cs) || occursIn word cs

def holds (operator : AttributeOperator) (actual expected : String) : Bool :=
  let a := actual.toList
  let e := expected.toList
  match operator with
  | equals => actual == expected
  | includes => !e.isEmpty && !e.any Ascii.isSpace && (Ascii.words actual).contains expected
  | dashMatch => actual == expected || (e ++ ['-']).isPrefixOf a
  | startsWith => !e.isEmpty && e.isPrefixOf a
  | endsWith => !e.isEmpty && e.isSuffixOf a
  | contains => !e.isEmpty && occursIn e a

end AttributeOperator

namespace Matching

variable (c : MatchingContext) (d : Document)

def elementNamespace (pattern : NamespacePattern) (e : Element) : Bool :=
  match pattern with
  | .any => true
  | .none => e.space.isNone
  | .omitted => match c.defaultNamespace with
      | some url => e.space == some url
      | none => true
  | .labelled label => match c.namespace? label with
      | some url => e.space == some url
      | none => false

def attributeValues (pattern : NamespacePattern) (name : String) (e : Element) : List String :=
  match pattern with
  | .any => c.host.attributeValues e name
  | .omitted => (e.attribute? none name).toList
  | .none => (e.attribute? none name).toList
  | .labelled label => match c.namespace? label with
      | some url => (e.attribute? (some url) name).toList
      | none => []

def attributeTest (test : Option (AttributeOperator × String)) (actual : String) : Bool :=
  match test with
  | none => true
  | some (operator, expected) => operator.holds actual expected

def sameType (e : Element) (id : NodeId) : Bool :=
  (d.element? id).any fun f => f.localName == e.localName && f.space == e.space

def isScope (id : NodeId) : Bool :=
  match c.scopeElement? d with
  | some scope => scope == .here id
  | none => d.isRoot id

def nthPosition (arguments : List Token) (position : Nat) : Bool :=
  (Nth.ofTokens? arguments).any (·.selects position)

def pseudoClass (id : NodeId) (e : Element) (name : String)
    (arguments : Option (List Token)) : Bool :=
  match name, arguments with
  | "root", none => d.isRoot id
  | "scope", none => isScope c d id
  | "first-child", none => (d.previousElement? id).isNone
  | "last-child", none => (d.nextElement? id).isNone
  | "only-child", none => (d.previousElement? id).isNone && (d.nextElement? id).isNone
  | "first-of-type", none => !(d.precedingElements id).any (sameType d e)
  | "last-of-type", none => !(d.followingElements id).any (sameType d e)
  | "empty", none => d.hasNoContent id
  | "nth-child", some tokens => nthPosition tokens ((d.precedingElements id).length + 1)
  | "nth-last-child", some tokens => nthPosition tokens ((d.followingElements id).length + 1)
  | _, _ => c.host.pseudoClass e name arguments

def simple (id : NodeId) (e : Element) : Simple → Bool
  | .universal pattern => elementNamespace c pattern e
  | .type pattern localName =>
      Ascii.sameIgnoringCase e.localName localName && elementNamespace c pattern e
  | .identifier name => e.id?.any (c.mode.nameCase.same · name)
  | .className name => e.classes.any (c.mode.nameCase.same · name)
  | .attributeTest pattern name test =>
      (attributeValues c pattern name e).any (attributeTest test)
  | .pseudoClass name arguments => pseudoClass c d id e name arguments
  | .pseudoElement _ _ => true

end Matching

end CssStyling
