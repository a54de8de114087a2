import CssStyling.Cascade
import CssStyling.Document.Edit
import CssStyling.Property.Standard
import CssStyling.Selector.Printer
import CssStyling.Store.Resolution

namespace CssStyling.Demo

def htmlElement (tag : String) (attributes : List (String × String)) : NodeData :=
  .element (.make tag (some Namespace.html) (attributes.map fun a => ⟨none, a.1, a.2⟩))

abbrev Build := StateM Document

def create (data : NodeData) : Build NodeId :=
  modifyGet (·.create data)

def append (parent child : NodeId) : Build Unit :=
  modify fun d => (d.append parent child).2

def appendAll (parent : NodeId) (children : List NodeId) : Build Unit :=
  children.forM (append parent)

def listItem (list : NodeId) (text : String) : Build NodeId := do
  let item ← create (htmlElement "li" [])
  let label ← create (.text text)
  append item label
  append list item
  return item

def build : Build (NodeId × List NodeId) := do
  let html ← create (htmlElement "html" [])
  let body ← create (htmlElement "body" [])
  let heading ← create (htmlElement "h1" [])
  let intro ← create (htmlElement "p" [("class", "intro")])
  let features ← create (htmlElement "div" [("class", "features"), ("id", "list")])
  let list ← create (htmlElement "ul" [])
  append html body
  appendAll body [heading, intro, features]
  append features list
  let first ← listItem list "Selector parser"
  let _ ← listItem list "Selector matcher"
  let last ← listItem list "Value pipeline"
  return (html, [body, heading, intro, features, list, first, last])

def shownSelectors : List String :=
  ["ul > li:first-child", "#list li, .intro", "svg|rect", "div >"]

def padRight (width : Nat) (s : String) : String :=
  s ++ String.ofList (List.replicate (width - s.length) ' ')

def selectorLine (source : String) : String :=
  "   " ++ padRight 22 source ++ " → " ++
    match SelectorList.ofText source with
    | .ok l => l.text ++ "  specificity " ++ l.maxSpecificity.text
    | .error e => e.message

def declare (property : String) (value : Value) : Declaration :=
  .make property value false

def rules : Except SyntaxError (List Rule) :=
  [("html", [declare "color" (.ofKeyword "black"), declare "font-size" (.px 16.0)],
      Origin.userAgent, 0),
    ("body", [declare "margin-left" (.px 8.0)], .userAgent, 0),
    ("h1", [declare "font-size" (.dimension 2.0 .em)], .author, 1),
    (".intro", [declare "color" (.ofKeyword "gray")], .author, 1),
    ("#list", [declare "padding-left" (.percentage 5.0), declare "width" (.percentage 50.0)],
      .author, 1),
    ("ul > li:first-child", [declare "font-weight" (.ofKeyword "bold")], .author, 1),
    ("li:last-child", [declare "font-weight" .inherit], .author, 1)].mapM
  fun (selectors, declarations, origin, source) =>
    Rule.ofText selectors declarations origin source

def shownProperties : List String :=
  ["color", "font-size", "font-weight", "padding-left", "width"]

def layout : Layout :=
  (StaticLayout.ofViewport 1024.0 768.0).toLayout

def propertyTexts (e : NodeId) : List String → StyleM String
  | [] => return ""
  | name :: names => do
      let value ← StyleM.computed layout e name
      return " " ++ name ++ "=" ++ value.text ++ (← propertyTexts e names)

def elementLine (d : Document) (e : NodeId) : StyleM String := do
  let name := ((d.element? e).map (·.localName)).getD ""
  return "   " ++ padRight 5 name ++ (← propertyTexts e shownProperties)

def elementLines (d : Document) : List NodeId → StyleM (List String)
  | [] => return []
  | e :: es => do
      let line ← elementLine d e
      return line :: (← elementLines d es)

def styleLines (d : Document) (root : NodeId) (shown : List NodeId) (rules : List Rule) :
    StyleM (List String) := do
  let changed ← StyleM.cascadeTree .standard d rules root
  return ["", "── Cascade ──", "   " ++ toString changed ++ " assigned values", "",
    "── Computed ──"] ++ (← elementLines d shown)

def report : Except String (List String) :=
  let ((root, shown), d) := build.run .empty
  match rules with
  | .error e => .error e.message
  | .ok rules =>
      match (styleLines d root shown rules).run ⟨.ofRegistry .standard, #[], #[]⟩ with
      | .error e _ => .error e.message
      | .ok lines _ => .ok ("── Selectors ──" :: shownSelectors.map selectorLine ++ lines)

end CssStyling.Demo
