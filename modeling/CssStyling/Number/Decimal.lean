import CssStyling.Number.Binary

namespace CssStyling

structure Decimal where
  digits : Nat
  exponent : Int
  deriving DecidableEq, Repr

structure RoundingInterval where
  low : Nat
  value : Nat
  high : Nat
  denominator : Nat
  closed : Bool
  deriving Repr

namespace RoundingInterval

/-- Below a power of two the spacing of floats is halved, unless the spacing is already the
smallest. The ends round to the value exactly when its significand is even. -/
def ofFinite (significand : Nat) (exponent : Int) : RoundingInterval :=
  let narrow := significand = Binary.hiddenBit ∧ exponent ≠ -1074
  let low := if narrow then 4 * significand - 1 else 4 * significand - 2
  let value := 4 * significand
  let high := 4 * significand + 2
  let closed := significand % 2 == 0
  match exponent - 2 with
  | .ofNat e => ⟨low <<< e, value <<< e, high <<< e, 1, closed⟩
  | .negSucc e => ⟨low, value, high, 1 <<< (e + 1), closed⟩

def inUnits (r : RoundingInterval) : Int → RoundingInterval
  | .ofNat e => { r with denominator := r.denominator * Nat.pow 10 e }
  | .negSucc e =>
      let scale := Nat.pow 10 (e + 1)
      { r with low := r.low * scale, value := r.value * scale, high := r.high * scale }

def holds (r : RoundingInterval) (n : Nat) : Bool :=
  let scaled := n * r.denominator
  if r.closed then r.low ≤ scaled && scaled ≤ r.high
  else r.low < scaled && scaled < r.high

def nearest? (r : RoundingInterval) : Option Nat :=
  let below := r.value / r.denominator
  let above := below + 1
  match r.holds below, r.holds above with
  | true, true =>
      let down := r.value - below * r.denominator
      let up := above * r.denominator - r.value
      if down < up then some below else some above
  | true, false => some below
  | false, true => some above
  | false, false => none

def search (r : RoundingInterval) : Nat → Int → Decimal
  | 0, exponent => ⟨(r.inUnits exponent).value / (r.inUnits exponent).denominator, exponent⟩
  | steps + 1, exponent =>
      match (r.inUnits exponent).nearest? with
      | some digits => ⟨digits, exponent⟩
      | none => r.search steps (exponent - 1)

end RoundingInterval

namespace Decimal

def topExponent (significand : Nat) (exponent : Int) : Int :=
  (significand.log2 + 1 + exponent) * 30103 / 100000 + 1

def trimZero (d : Decimal) : Decimal :=
  if d.digits % 10 = 0 then ⟨d.digits / 10, d.exponent + 1⟩ else d

/-- Seventeen digits always tell two floats apart, so the search ends within its steps. -/
def shortest (significand : Nat) (exponent : Int) : Decimal :=
  if significand = 0 then ⟨0, 0⟩
  else
    ((RoundingInterval.ofFinite significand exponent).search 24
      (topExponent significand exponent)).trimZero

end Decimal

end CssStyling
