import CssStyling.Matching.Nth

namespace CssStyling

inductive Fault where
  | overflow
  | divisionByZero
  deriving DecidableEq, Repr

namespace Word

def sub (m n : Int64) : Except Fault Int64 :=
  if Nth.fitsWord (m.toInt - n.toInt) then .ok (m - n) else .error .overflow

def divide (part : Int64 → Int64 → Int64) (m n : Int64) : Except Fault Int64 :=
  if n = 0 then .error .divisionByZero
  else if m = Int64.minValue ∧ n = -1 then .error .overflow
  else .ok (part m n)

def quotient (m n : Int64) : Int64 :=
  m / n

def remainder (m n : Int64) : Int64 :=
  m % n

def checkedSub (m n : Int64) : Except Fault (Option Int64) :=
  if Nth.fitsWord (m.toInt - n.toInt) then (sub m n).map some else .ok none

def checkedDivide (part : Int64 → Int64 → Int64) (m n : Int64) : Except Fault (Option Int64) :=
  if n = 0 ∨ (m = Int64.minValue ∧ n = -1) then .ok none else (divide part m n).map some

end Word

namespace Nth

def selectsWord (step offset position : Int64) : Except Fault Bool := do
  if step = 0 then
    return position == offset
  let some distance ← Word.checkedSub position offset | return false
  if (← Word.checkedDivide Word.remainder distance step) == some 0 then
    return (← Word.checkedDivide Word.quotient distance step).any (0 ≤ ·)
  return false

end Nth

end CssStyling
