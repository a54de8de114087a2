
namespace CssStyling

inductive Binary where
  | nan
  | infinite (negative : Bool)
  | finite (negative : Bool) (significand : Nat) (exponent : Int)
  deriving DecidableEq, Repr

namespace Binary

def hiddenBit : Nat :=
  4503599627370496

def ofBits (bits : Nat) : Binary :=
  let negative := bits.testBit 63
  let field := (bits >>> 52) % 2048
  let fraction := bits % hiddenBit
  if field = 2047 then
    if fraction = 0 then .infinite negative else .nan
  else if field = 0 then .finite negative fraction (-1074)
  else .finite negative (hiddenBit + fraction) (Int.ofNat field - 1075)

def ofFloat (x : Float) : Binary :=
  ofBits x.toBits.toNat

def negative : Binary → Bool
  | nan => false
  | infinite s => s
  | finite s _ _ => s

def applySign (negative : Bool) (n : Nat) : Int :=
  if negative then -(n : Int) else n

def wholePart? : Binary → Option (Int × Bool)
  | nan => none
  | infinite _ => none
  | finite s m (.ofNat e) => some (applySign s (m <<< e), true)
  | finite s m (.negSucc e) =>
      let scale := 1 <<< (e + 1)
      some (applySign s (m / scale), m % scale == 0)

def toInt? (b : Binary) : Option Int :=
  match b.wholePart? with
  | some (n, true) => some n
  | _ => none

def toIntClamped (low high : Int) : Binary → Int
  | nan => 0
  | infinite true => low
  | infinite false => high
  | finite s m e =>
      match (finite s m e).wholePart? with
      | some (n, _) => max low (min high n)
      | none => 0

end Binary

end CssStyling
