import CssStyling.Selector
import CssStyling.Token.Diagnostic
import CssStyling.Token.Printer

namespace CssStyling

namespace AttributeOperator

def chars : AttributeOperator → List Char
  | equals => ['=']
  | includes => ['~', '=']
  | dashMatch => ['|', '=']
  | startsWith => ['^', '=']
  | endsWith => ['$', '=']
  | contains => ['*', '=']

def diagnostic : AttributeOperator → String
  | equals => "Equals"
  | includes => "Includes"
  | dashMatch => "DashMatch"
  | startsWith => "Prefix"
  | endsWith => "Suffix"
  | contains => "Substring"

end AttributeOperator

namespace Simple

def argumentChars : Option (List Token) → List Char
  | none => []
  | some ts => '(' :: Token.listChars ts ++ [')']

def testChars : Option (AttributeOperator × String) → List Char
  | none => []
  | some (operator, value) => operator.chars ++ quotedChars value.toList

def chars : Simple → List Char
  | type pattern localName => pattern.chars ++ localName.toList
  | universal pattern => pattern.chars ++ ['*']
  | identifier id => '#' :: id.toList
  | className name => '.' :: name.toList
  | attributeTest pattern name test =>
      '[' :: pattern.chars ++ name.toList ++ testChars test ++ [']']
  | pseudoClass name arguments => ':' :: name.toList ++ argumentChars arguments
  | pseudoElement name arguments => ':' :: ':' :: name.toList ++ argumentChars arguments

def text (s : Simple) : String :=
  String.ofList s.chars

def argumentDiagnostic (arguments : Option (List Token)) : String :=
  optionText (arguments.map fun ts => listText (ts.map Token.diagnostic))

def diagnostic : Simple → String
  | type pattern localName =>
      recordText "Type" [("namespace", pattern.diagnostic), ("local_name", literalText localName)]
  | universal pattern => recordText "Universal" [("namespace", pattern.diagnostic)]
  | identifier id => "Id(" ++ literalText id ++ ")"
  | className name => "Class(" ++ literalText name ++ ")"
  | attributeTest pattern name test =>
      recordText "Attribute" [("namespace", pattern.diagnostic), ("name", literalText name),
        ("operator", (test.map (·.1.diagnostic)).getD "Exists"),
        ("value", literalText ((test.map (·.2)).getD ""))]
  | pseudoClass name arguments =>
      recordText "PseudoClass" [("name", literalText name),
        ("arguments", argumentDiagnostic arguments)]
  | pseudoElement name arguments =>
      recordText "PseudoElement" [("name", literalText name),
        ("arguments", argumentDiagnostic arguments)]

end Simple

namespace Compound

def chars (c : Compound) : List Char :=
  c.simples.flatMap Simple.chars

def text (c : Compound) : String :=
  String.ofList c.chars

def diagnostic (c : Compound) : String :=
  listText (c.simples.map Simple.diagnostic)

end Compound

namespace Complex

def chars (s : Complex) : List Char :=
  s.steps.flatMap fun step => step.compound.chars ++ step.combinator.chars

def text (s : Complex) : String :=
  String.ofList s.chars

def diagnostic (s : Complex) : String :=
  "ComplexSelector(" ++ s.text ++ ")"

end Complex

namespace SelectorList

def separated : List (List Char) → List Char
  | [] => []
  | [cs] => cs
  | cs :: rest => cs ++ ',' :: ' ' :: separated rest

def chars (l : SelectorList) : List Char :=
  separated (l.members.map Complex.chars)

def text (l : SelectorList) : String :=
  String.ofList l.chars

def diagnostic (l : SelectorList) : String :=
  "SelectorList(" ++ l.text ++ ")"

end SelectorList

end CssStyling
