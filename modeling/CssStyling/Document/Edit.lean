import CssStyling.Document.Traversal

namespace CssStyling

namespace Node

def dropChild (child : NodeId) (node : Node) : Node :=
  { node with children := node.children.erase child }

def putChild (child : NodeId) (before : Option NodeId) (node : Node) : Node :=
  { node with children :=
      node.children.takeWhile (fun c => some c != before) ++
        child :: node.children.dropWhile (fun c => some c != before) }

end Node

namespace Document

def detach (d : Document) (id : NodeId) : Document :=
  match d.parent? id with
  | none => d
  | some p => ⟨(d.nodes.modify p (Node.dropChild id)).modify id fun n => { n with parent := none }⟩

def canInsert (d : Document) (parent child : NodeId) (before : Option NodeId) : Bool :=
  d.contains parent && d.contains child && !d.isInclusiveAncestor child parent &&
    match before with
    | none => true
    | some r => r != child && d.parent? r == some parent

def link (d : Document) (parent child : NodeId) (before : Option NodeId) : Document :=
  ⟨(d.nodes.modify parent (Node.putChild child before)).modify child fun n =>
    { n with parent := some parent }⟩

def insertBefore (d : Document) (parent child : NodeId) (before : Option NodeId) :
    Bool × Document :=
  if d.canInsert parent child before then (true, (d.detach child).link parent child before)
  else (false, d)

def append (d : Document) (parent child : NodeId) : Bool × Document :=
  d.insertBefore parent child none

def removeSubtree (d : Document) (id : NodeId) : List NodeId × Document :=
  if d.contains id then
    let freed := d.subtree id
    (freed, ⟨freed.foldl SlotMap.erase (d.detach id).nodes⟩)
  else ([], d)

end Document

end CssStyling
