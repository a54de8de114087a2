import CssStyling.Document

namespace CssStyling.Document

/-- An upper bound for the length of a path. -/
def height (d : Document) : Nat :=
  d.nodes.slots.size

def ancestorsWithin (d : Document) : Nat → NodeId → List NodeId
  | 0, _ => []
  | steps + 1, id =>
      match d.parent? id with
      | none => []
      | some p => p :: d.ancestorsWithin steps p

def ancestors (d : Document) (id : NodeId) : List NodeId :=
  d.ancestorsWithin d.height id

def isInclusiveAncestor (d : Document) (ancestor id : NodeId) : Bool :=
  ancestor == id || (d.ancestors id).contains ancestor

def descendantsWithin (d : Document) : Nat → NodeId → List NodeId
  | 0, _ => []
  | depth + 1, id => (d.children id).flatMap fun c => c :: d.descendantsWithin depth c

def descendants (d : Document) (id : NodeId) : List NodeId :=
  d.descendantsWithin d.height id

def subtree (d : Document) (id : NodeId) : List NodeId :=
  id :: d.descendants id

def subtreeElements (d : Document) (id : NodeId) : List NodeId :=
  (d.subtree id).filter d.isElement

def siblings (d : Document) (id : NodeId) : List NodeId :=
  match d.parent? id with
  | some p => d.children p
  | none => []

def preceding (d : Document) (id : NodeId) : List NodeId :=
  ((d.siblings id).takeWhile (· != id)).reverse

def following (d : Document) (id : NodeId) : List NodeId :=
  ((d.siblings id).dropWhile (· != id)).tail

def firstChild? (d : Document) (id : NodeId) : Option NodeId :=
  (d.children id).head?

def lastChild? (d : Document) (id : NodeId) : Option NodeId :=
  (d.children id).getLast?

def previousSibling? (d : Document) (id : NodeId) : Option NodeId :=
  (d.preceding id).head?

def nextSibling? (d : Document) (id : NodeId) : Option NodeId :=
  (d.following id).head?

def parentElement? (d : Document) (id : NodeId) : Option NodeId :=
  (d.parent? id).filter d.isElement

def precedingElements (d : Document) (id : NodeId) : List NodeId :=
  (d.preceding id).filter d.isElement

def followingElements (d : Document) (id : NodeId) : List NodeId :=
  (d.following id).filter d.isElement

def previousElement? (d : Document) (id : NodeId) : Option NodeId :=
  (d.precedingElements id).head?

def nextElement? (d : Document) (id : NodeId) : Option NodeId :=
  (d.followingElements id).head?

def elementAncestors (d : Document) (id : NodeId) : List NodeId :=
  (d.ancestors id).takeWhile d.isElement

def isRoot (d : Document) (id : NodeId) : Bool :=
  (d.parentElement? id).isNone

def hasNoContent (d : Document) (id : NodeId) : Bool :=
  (d.children id).all fun c => match d.node? c with
    | some node => node.data.text?.any (·.isEmpty)
    | none => true

def elementText? (d : Document) (id : NodeId) : Option String :=
  (d.element? id).map fun e => "<" ++ e.localName ++ " " ++ id.text ++ ">"

end CssStyling.Document
