import CssStyling.Property.Registry

namespace CssStyling.PropertyRegistry

open PropertyDefinition

def boxLength (name : String) (base : PercentageBase) : PropertyDefinition :=
  (((make name .auto).allow (.ofList [.dimension, .auto])).withPercentages base).withDirt
    Dirt.layout

def margin (side : String) : PropertyDefinition :=
  (((make ("margin-" ++ side) (.px 0.0)).allow (.ofList [.dimension, .auto])).withPercentages
    .containingBlockWidth).withDirt Dirt.layout

def padding (side : String) : PropertyDefinition :=
  (((make ("padding-" ++ side) (.px 0.0)).allow (.ofList [.dimension])).withPercentages
    .containingBlockWidth).withDirt Dirt.layout

def displayWords : List String :=
  ["inline", "block", "inline-block", "flex", "inline-flex", "grid", "inline-grid", "list-item",
    "table", "contents"]

def fontSizeWords : List String :=
  ["xx-small", "x-small", "small", "medium", "large", "x-large", "xx-large", "smaller", "larger"]

def textProperty (name : String) (start : Value) : PropertyDefinition :=
  ((make name start).inheriting).withDirt (Dirt.layout ||| Dirt.text)

def standardDefinitions : List PropertyDefinition :=
  [(((make "color" (.ofKeyword "black")).inheriting).allow
      (.ofList [.keyword, .currentColor])).withDirt Dirt.paint,
    (((make "display" (.ofKeyword "inline")).withKeywords displayWords).allow
      (.ofList [.none])).withDirt (Dirt.layout ||| Dirt.stacking),
    (((make "visibility" (.ofKeyword "visible")).inheriting).withKeywords
      ["visible", "hidden", "collapse"]).withDirt Dirt.paint,
    (((textProperty "font-size" (.ofKeyword "medium")).allow
      (.ofList [.dimension])).withKeywords fontSizeWords).withPercentages .parentFontSize,
    (textProperty "font-family" (.ofKeyword "serif")).allow (.ofList [.string, .keyword]),
    ((textProperty "font-weight" (.integer 400)).allow (.ofList [.integer])).withKeywords
      ["normal", "bold", "bolder", "lighter"],
    (((textProperty "line-height" (.ofKeyword "normal")).allow
      (.ofList [.number, .dimension])).withKeywords ["normal"]).withPercentages .parentFontSize,
    (textProperty "text-align" (.ofKeyword "start")).withKeywords
      ["start", "end", "left", "right", "center", "justify"],
    boxLength "width" .containingBlockWidth,
    boxLength "height" .containingBlockHeight,
    boxLength "left" .containingBlockWidth,
    boxLength "right" .containingBlockWidth,
    boxLength "top" .containingBlockHeight,
    boxLength "bottom" .containingBlockHeight,
    ((make "z-index" .auto).allow (.ofList [.integer, .auto])).withDirt
      (Dirt.stacking ||| Dirt.paint),
    ((make "opacity" (.number 1.0)).allow (.ofList [.number])).withDirt
      (Dirt.paint ||| Dirt.stacking)] ++
  ["top", "right", "bottom", "left"].flatMap fun side => [margin side, padding side]

def standard : PropertyRegistry :=
  ofList standardDefinitions

end CssStyling.PropertyRegistry
