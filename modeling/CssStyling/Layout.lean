import CssStyling.Key
import CssStyling.Value.LengthUnit

namespace CssStyling

inductive PercentageBase where
  | containingBlockWidth
  | containingBlockHeight
  | parentFontSize
  deriving DecidableEq, Repr

namespace PercentageBase

def name : PercentageBase → String
  | containingBlockWidth => "ContainingBlockWidth"
  | containingBlockHeight => "ContainingBlockHeight"
  | parentFontSize => "ParentFontSize"

end PercentageBase

structure Layout where
  unitScale : Key → LengthUnit → Option Float
  percentageBase : Key → PercentageBase → Option Float

structure StaticLayout where
  width : Float
  height : Float
  fontSize : Float
  overrides : List ((Key × PercentageBase) × Float)

namespace StaticLayout

def ofViewport (width height : Float) : StaticLayout :=
  ⟨width, height, 16.0, []⟩

def standard : StaticLayout :=
  ofViewport 800.0 600.0

def setBase (l : StaticLayout) (element : Key) (base : PercentageBase) (size : Float) :
    StaticLayout :=
  { l with overrides := ((element, base), size) :: l.overrides }

def smaller (x y : Float) : Float :=
  if x.isNaN then y else if y < x then y else x

def larger (x y : Float) : Float :=
  if x.isNaN then y else if x < y then y else x

def unitScale (l : StaticLayout) (unit : LengthUnit) : Option Float :=
  match unit.absoluteScale? with
  | some scale => some scale
  | none => match unit with
      | .em => some l.fontSize
      | .rem => some l.fontSize
      | .ex => some (l.fontSize / 2.0)
      | .ch => some (l.fontSize / 2.0)
      | .vw => some (l.width / 100.0)
      | .vh => some (l.height / 100.0)
      | .vmin => some (smaller (l.width / 100.0) (l.height / 100.0))
      | .vmax => some (larger (l.width / 100.0) (l.height / 100.0))
      | _ => none

def baseOfViewport (l : StaticLayout) : PercentageBase → Float
  | .containingBlockWidth => l.width
  | .containingBlockHeight => l.height
  | .parentFontSize => l.fontSize

def percentageBase (l : StaticLayout) (element : Key) (base : PercentageBase) : Float :=
  (l.overrides.lookup (element, base)).getD (l.baseOfViewport base)

def toLayout (l : StaticLayout) : Layout where
  unitScale _ unit := l.unitScale unit
  percentageBase element base := some (l.percentageBase element base)

end StaticLayout

namespace Layout

def ofTables (units : List (String × Float)) (bases : List (PercentageBase × Float)) :
    Layout where
  unitScale _ unit := units.lookup (Ascii.lower unit.name)
  percentageBase _ base := bases.lookup base

end Layout

end CssStyling
