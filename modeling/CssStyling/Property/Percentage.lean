import CssStyling.Layout
import CssStyling.Value

namespace CssStyling

inductive Question where
  | unit (element : Key) (unit : LengthUnit)
  | base (element : Key) (base : PercentageBase)
  deriving DecidableEq, Repr

inductive ResolutionError where
  | noPercentageBase (property : String)
  | missingPercentageBase (element : Key) (base : PercentageBase)
  | unknownUnit (element : Key) (unit : LengthUnit)
  deriving DecidableEq, Repr

namespace ResolutionError

def message : ResolutionError → String
  | noPercentageBase property => "`" ++ property ++ "` has no percentage resolver"
  | missingPercentageBase element base => "layout has no " ++ base.name ++ " for " ++ element.text
  | unknownUnit element unit =>
      "layout cannot resolve unit `" ++ unit.name ++ "` for " ++ element.text

end ResolutionError

abbrev PercentageResolver :=
  Layout → Key → Float → List Question × Except ResolutionError Value

namespace PercentageBase

def resolver (base : PercentageBase) : PercentageResolver := fun layout e x =>
  ([.base e base],
    match layout.percentageBase e base with
    | none => .error (.missingPercentageBase e base)
    | some size => .ok (.px (size * x / 100.0)))

end PercentageBase

end CssStyling
