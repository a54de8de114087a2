import CssStyling.Number.Decimal

namespace CssStyling

structure NumberLayout where
  pointZero : Bool
  scientificFrom : Option Int
  scientificBelow : Option Int
  deriving Repr

namespace NumberLayout

def plain : NumberLayout :=
  ⟨false, none, none⟩

def diagnostic : NumberLayout :=
  ⟨true, some 16, some (-4)⟩

def digitChars (n : Nat) : List Char :=
  Nat.toDigits 10 n

def zeros (n : Nat) : List Char :=
  List.replicate n '0'

def positional (layout : NumberLayout) (digits : List Char) : Int → List Char
  | .ofNat e => digits ++ zeros e ++ if layout.pointZero then ['.', '0'] else []
  | .negSucc e =>
      let places := e + 1
      let padded := zeros (places + 1 - digits.length) ++ digits
      padded.take (padded.length - places) ++ '.' :: padded.drop (padded.length - places)

def scientific (digits : List Char) (magnitude : Int) : List Char :=
  let mantissa := match digits with
    | d :: d' :: ds => d :: '.' :: d' :: ds
    | ds => ds
  mantissa ++ 'e' :: (toString magnitude).toList

def usesExponent (layout : NumberLayout) (magnitude : Int) : Bool :=
  layout.scientificFrom.any (· ≤ magnitude) || layout.scientificBelow.any (magnitude < ·)

def magnitudeText (layout : NumberLayout) (d : Decimal) : List Char :=
  let digits := digitChars d.digits
  let magnitude := d.exponent + digits.length - 1
  if d.digits ≠ 0 ∧ layout.usesExponent magnitude then scientific digits magnitude
  else layout.positional digits d.exponent

def text (layout : NumberLayout) : Binary → List Char
  | .nan => ['N', 'a', 'N']
  | .infinite negative => (if negative then ['-'] else []) ++ ['i', 'n', 'f']
  | .finite negative significand exponent =>
      (if negative then ['-'] else []) ++
        layout.magnitudeText (Decimal.shortest significand exponent)

def write (layout : NumberLayout) (x : Float) : String :=
  String.ofList (layout.text (Binary.ofFloat x))

end NumberLayout

end CssStyling
