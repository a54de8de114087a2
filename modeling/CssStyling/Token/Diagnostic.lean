import CssStyling.Number.Layout
import CssStyling.Text.Literal
import CssStyling.Token

namespace CssStyling

def recordText (name : String) (fields : List (String × String)) : String :=
  name ++ " \x7b " ++ ", ".intercalate (fields.map fun f => f.1 ++ ": " ++ f.2) ++ " \x7d"

def literalText (s : String) : String :=
  String.ofList (Literal.ofString s)

def flagText (b : Bool) : String :=
  if b then "true" else "false"

def optionText : Option String → String
  | none => "None"
  | some s => "Some(" ++ s ++ ")"

def listText (items : List String) : String :=
  "[" ++ ", ".intercalate items ++ "]"

namespace Combinator

def diagnostic : Combinator → String
  | none => "None"
  | descendant => "Descendant"
  | child => "Child"
  | nextSibling => "NextSibling"
  | subsequentSibling => "SubsequentSibling"
  | column => "Column"

end Combinator

namespace NamespacePattern

def diagnostic : NamespacePattern → String
  | omitted => "Default"
  | any => "Any"
  | none => "None"
  | labelled label => "Prefix(" ++ literalText label ++ ")"

end NamespacePattern

namespace Token

def floatText (x : Float) : String :=
  NumberLayout.diagnostic.write x

def diagnostic : Token → String
  | ident name => "Ident(" ++ literalText name ++ ")"
  | function name => "Function(" ++ literalText name ++ ")"
  | hash value isId => recordText "Hash" [("value", literalText value), ("is_id", flagText isId)]
  | string value => "String(" ++ literalText value ++ ")"
  | number value isInteger signed =>
      recordText "Number" [("value", floatText value), ("is_integer", flagText isInteger),
        ("signed", flagText signed)]
  | percentage value => "Percentage(" ++ floatText value ++ ")"
  | dimension value unit =>
      recordText "Dimension" [("value", floatText value), ("unit", literalText unit)]
  | whitespace => "Whitespace"
  | colon => "Colon"
  | comma => "Comma"
  | openBracket => "LBracket"
  | closeBracket => "RBracket"
  | openParen => "LParen"
  | closeParen => "RParen"
  | includeMatch => "IncludeMatch"
  | dashMatch => "DashMatch"
  | startMatch => "PrefixMatch"
  | endMatch => "SuffixMatch"
  | substringMatch => "SubstringMatch"
  | column => "Column"
  | delim c => "Delim(" ++ String.ofList (Literal.ofChar c) ++ ")"
  | eof => "EOF"
  | namespaceMark pattern => "NamespacePrefix(" ++ pattern.diagnostic ++ ")"
  | qualifiedName pattern localName =>
      recordText "QualifiedName" [("namespace", pattern.diagnostic),
        ("local_name", optionText (localName.map literalText))]
  | combinator c => "Combinator(" ++ c.diagnostic ++ ")"

end Token

end CssStyling
