
namespace CssStyling.NumberText

structure Written where
  negative : Bool
  whole : List Char
  fraction : List Char
  exponent : Int
  deriving Repr

def digitsToNat (cs : List Char) : Nat :=
  cs.foldl (fun n c => 10 * n + (c.toNat - '0'.toNat)) 0

def infinity : Float :=
  1.0 / 0.0

def withSign (negative : Bool) (x : Float) : Float :=
  if negative then -x else x

/-- Every decimal beyond `10 ^ 400` is infinite and every one below `10 ^ (-400)` is zero, so
the power of ten is only computed in between. -/
def magnitude (digits : Nat) (exponent : Int) : Float :=
  let size := exponent + (Nat.toDigits 10 digits).length
  if digits = 0 then 0.0
  else if 400 < size then infinity
  else if size < -400 then 0.0
  else match exponent with
    | .ofNat e => Float.ofScientific digits false e
    | .negSucc e => Float.ofScientific digits true (e + 1)

def Written.toFloat (w : Written) : Float :=
  withSign w.negative
    (magnitude (digitsToNat (w.whole ++ w.fraction)) (w.exponent - w.fraction.length))

def digits (cs : List Char) : List Char × List Char :=
  (cs.takeWhile Char.isDigit, cs.dropWhile Char.isDigit)

def sign : List Char → Bool × Bool × List Char
  | '+' :: cs => (false, true, cs)
  | '-' :: cs => (true, true, cs)
  | cs => (false, false, cs)

def exponentMark (c : Char) : Bool :=
  c == 'e' || c == 'E'

def exponent? : List Char → Option (Int × List Char)
  | [] => none
  | c :: cs =>
      if exponentMark c then
        let (negative, _, afterSign) := sign cs
        match digits afterSign with
        | ([], _) => none
        | (ds, rest) =>
            let n : Int := digitsToNat ds
            some (if negative then -n else n, rest)
      else none

def read? (s : String) : Option Float :=
  let (negative, _, body) := sign s.toList
  let word := (String.ofList body).toLower
  if word == "inf" || word == "infinity" then some (withSign negative infinity)
  else if word == "nan" then some (0.0 / 0.0)
  else
    let (whole, afterWhole) := digits body
    let (fraction, afterFraction) := match afterWhole with
      | '.' :: cs => digits cs
      | cs => ([], cs)
    if whole.isEmpty && fraction.isEmpty then none
    else match afterFraction with
      | [] => some (Written.toFloat ⟨negative, whole, fraction, 0⟩)
      | cs => match exponent? cs with
          | some (e, []) => some (Written.toFloat ⟨negative, whole, fraction, e⟩)
          | _ => none

end CssStyling.NumberText
