import CssStyling.Number.Binary
import CssStyling.Text.Literal
import CssStyling.Token.Lexer
import CssStyling.Token.Printer
import CssStyling.Value.Kind
import CssStyling.Value.LengthUnit

namespace CssStyling

inductive Value where
  | unset
  | initial
  | inherit
  | auto
  | none
  | keyword (word : String)
  | integer (n : Int)
  | number (x : Float)
  | percentage (x : Float)
  | dimension (x : Float) (unit : LengthUnit)
  | string (s : String)
  | currentColor
  deriving BEq, Repr

namespace Value

def kind : Value → ValueKind
  | unset => .unset
  | initial => .initial
  | inherit => .inherit
  | auto => .auto
  | none => .none
  | keyword _ => .keyword
  | integer _ => .integer
  | number _ => .number
  | percentage _ => .percentage
  | dimension _ _ => .dimension
  | string _ => .string
  | currentColor => .currentColor

def isUnset : Value → Bool
  | unset => true
  | _ => false

def isDefaulting : Value → Bool
  | unset => true
  | initial => true
  | _ => false

def px (x : Float) : Value :=
  dimension x .px

def ofKeyword (word : String) : Value :=
  keyword (Ascii.lower word)

def ofWord (word : String) : Value :=
  match Ascii.lower word with
  | "unset" => unset
  | "initial" => initial
  | "inherit" => inherit
  | "auto" => auto
  | "none" => none
  | "currentcolor" => currentColor
  | other => keyword other

def integerOfFloat (x : Float) : Int :=
  (Binary.ofFloat x).toIntClamped (-9223372036854775808) 9223372036854775807

def ofToken? : Token → Option Value
  | .ident word => some (ofWord word)
  | .number x true _ => some (integer (integerOfFloat x))
  | .number x false _ => some (number x)
  | .percentage x => some (percentage x)
  | .dimension x unit => some (dimension x (.ofName unit))
  | .string s => some (string s)
  | _ => Option.none

def ofText? (text : String) : Option Value :=
  match (Token.listOfText text).filter fun t => !t.isWhitespace && !t.isEof with
  | [t] => ofToken? t
  | _ => Option.none

def chars : Value → List Char
  | unset => "unset".toList
  | initial => "initial".toList
  | inherit => "inherit".toList
  | auto => "auto".toList
  | none => "none".toList
  | keyword word => word.toList
  | integer n => (toString n).toList
  | number x => Token.numberChars x
  | percentage x => Token.numberChars x ++ ['%']
  | dimension x unit => Token.numberChars x ++ unit.name.toList
  | string s => Literal.ofString s
  | currentColor => "currentcolor".toList

def text (v : Value) : String :=
  String.ofList v.chars

end Value

end CssStyling
