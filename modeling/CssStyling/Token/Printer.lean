import CssStyling.Number.Layout
import CssStyling.Token

namespace CssStyling

namespace Combinator

def chars : Combinator → List Char
  | none => []
  | descendant => [' ']
  | child => [' ', '>', ' ']
  | nextSibling => [' ', '+', ' ']
  | subsequentSibling => [' ', '~', ' ']
  | column => [' ', '|', '|', ' ']

end Combinator

namespace NamespacePattern

def chars : NamespacePattern → List Char
  | omitted => []
  | any => ['*', '|']
  | none => ['|']
  | labelled label => label.toList ++ ['|']

end NamespacePattern

def quotedChar : Char → List Char
  | '"' => ['\\', '"']
  | '\\' => ['\\', '\\']
  | '\n' => ['\\', 'a', ' ']
  | c => [c]

def quotedChars (cs : List Char) : List Char :=
  '"' :: cs.flatMap quotedChar ++ ['"']

namespace Token

def numberChars (value : Float) : List Char :=
  NumberLayout.plain.text (Binary.ofFloat value)

def plusSign (value : Float) (signed : Bool) : List Char :=
  if signed && 0.0 ≤ value then ['+'] else []

def chars : Token → List Char
  | ident name => name.toList
  | function name => name.toList ++ ['(']
  | hash value _ => '#' :: value.toList
  | string value => quotedChars value.toList
  | number value _ signed => plusSign value signed ++ numberChars value
  | percentage value => numberChars value ++ ['%']
  | dimension value unit => numberChars value ++ unit.toList
  | whitespace => [' ']
  | colon => [':']
  | comma => [',']
  | openBracket => ['[']
  | closeBracket => [']']
  | openParen => ['(']
  | closeParen => [')']
  | includeMatch => ['~', '=']
  | dashMatch => ['|', '=']
  | startMatch => ['^', '=']
  | endMatch => ['$', '=']
  | substringMatch => ['*', '=']
  | column => ['|', '|']
  | delim c => [c]
  | eof => []
  | namespaceMark pattern => pattern.chars
  | qualifiedName pattern (some localName) => pattern.chars ++ localName.toList
  | qualifiedName pattern Option.none => pattern.chars ++ ['*']
  | combinator c => c.chars

def text (t : Token) : String :=
  String.ofList t.chars

def listChars (ts : List Token) : List Char :=
  ts.flatMap chars

end Token

end CssStyling
