import CssStyling.Number.Binary
import CssStyling.Number.Reader
import CssStyling.Text.Ascii
import CssStyling.Token

namespace CssStyling

structure Nth where
  step : Int
  offset : Int
  deriving DecidableEq, Repr

namespace Nth

def coefficientLimit : Int :=
  2147483647

/-- Positions are told apart as words of sixty-four bits; a distance that does not fit into one
selects nothing. -/
def fitsWord (n : Int) : Bool :=
  -9223372036854775808 ≤ n && n ≤ 9223372036854775807

def selects (p : Nth) (position : Int) : Bool :=
  if p.step = 0 then position == p.offset
  else
    let distance := position - p.offset
    fitsWord distance && distance.tmod p.step == 0 && 0 ≤ distance.tdiv p.step

def limited? (n : Int) : Option Int :=
  if -coefficientLimit ≤ n ∧ n ≤ coefficientLimit then some n else none

def coefficient? (x : Float) : Option Int :=
  (Binary.ofFloat x).toInt?.bind limited?

def integer? (signed : Bool) : Token → Option Int
  | .number value true s => if s == signed then coefficient? value else none
  | _ => none

def lowerChars (s : String) : List Char :=
  s.toList.map Char.toLower

def lead? : List Token → Option (Int × List Char × List Token)
  | .dimension value unit :: rest => (coefficient? value).map fun a => (a, lowerChars unit, rest)
  | .delim '+' :: .ident name :: rest =>
      match lowerChars name with
      | '-' :: _ => none
      | cs => some (1, cs, rest)
  | .ident name :: rest =>
      match lowerChars name with
      | '-' :: cs => some (-1, cs, rest)
      | cs => some (1, cs, rest)
  | _ => none

def offset? : List Token → Option Int
  | [] => some 0
  | [number] => integer? true number
  | [.delim '+', number] => integer? false number
  | [.delim '-', number] => (integer? false number).map (-·)
  | _ => none

def negativeOffset? (digits : List Char) : List Token → Option Int
  | [] =>
      if digits ≠ [] ∧ digits.all Char.isDigit then
        (limited? (NumberText.digitsToNat digits)).map (-·)
      else none
  | [number] => if digits = [] then (integer? false number).map (-·) else none
  | _ => none

def ofLead? : Int × List Char × List Token → Option Nth
  | (step, ['n'], rest) => (offset? rest).map (⟨step, ·⟩)
  | (step, 'n' :: '-' :: digits, rest) => (negativeOffset? digits rest).map (⟨step, ·⟩)
  | _ => none

def single? : List Token → Option (Option Nth)
  | [.ident word] =>
      if lowerChars word = ['o', 'd', 'd'] then some (some ⟨2, 1⟩)
      else if lowerChars word = ['e', 'v', 'e', 'n'] then some (some ⟨2, 0⟩)
      else none
  | [.number value true _] => some ((coefficient? value).map (⟨0, ·⟩))
  | _ => none

def ofTokens? (arguments : List Token) : Option Nth :=
  let tokens := arguments.filter fun t => !t.isWhitespace
  match single? tokens with
  | some found => found
  | none => (lead? tokens).bind ofLead?

end Nth

end CssStyling
