import CssStyling.Text.Ascii

namespace CssStyling

inductive LengthUnit where
  | px
  | em
  | rem
  | ex
  | ch
  | vw
  | vh
  | vmin
  | vmax
  | cm
  | mm
  | q
  | inch
  | pt
  | pc
  | other (name : String)
  deriving DecidableEq, Repr

namespace LengthUnit

def name : LengthUnit → String
  | px => "px"
  | em => "em"
  | rem => "rem"
  | ex => "ex"
  | ch => "ch"
  | vw => "vw"
  | vh => "vh"
  | vmin => "vmin"
  | vmax => "vmax"
  | cm => "cm"
  | mm => "mm"
  | q => "q"
  | inch => "in"
  | pt => "pt"
  | pc => "pc"
  | other name => name

def known : List LengthUnit :=
  [px, em, rem, ex, ch, vw, vh, vmin, vmax, cm, mm, q, inch, pt, pc]

def ofName (s : String) : LengthUnit :=
  (known.find? (·.name == Ascii.lower s)).getD (other (Ascii.lower s))

def isKnown : LengthUnit → Bool
  | other _ => false
  | _ => true

def absoluteScale? : LengthUnit → Option Float
  | px => some 1.0
  | inch => some 96.0
  | cm => some (96.0 / 2.54)
  | mm => some (96.0 / 25.4)
  | q => some (96.0 / 101.6)
  | pt => some (96.0 / 72.0)
  | pc => some 16.0
  | _ => none

end LengthUnit

end CssStyling
