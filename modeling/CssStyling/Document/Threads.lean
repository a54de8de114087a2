import CssStyling.Document

namespace CssStyling

namespace NodeData

def mapElement (f : Element → Element) : NodeData → NodeData
  | element e => element (f e)
  | data => data

end NodeData

structure ThreadedNode where
  data : NodeData
  parent : Option NodeId
  firstChild : Option NodeId
  lastChild : Option NodeId
  previous : Option NodeId
  next : Option NodeId
  deriving Repr

structure ThreadedDocument where
  nodes : SlotMap ThreadedNode
  deriving Repr

namespace ThreadedDocument

def empty : ThreadedDocument :=
  ⟨.empty⟩

def node? (t : ThreadedDocument) (id : NodeId) : Option ThreadedNode :=
  t.nodes.get? id

def contains (t : ThreadedDocument) (id : NodeId) : Bool :=
  t.nodes.contains id

def parent? (t : ThreadedDocument) (id : NodeId) : Option NodeId :=
  (t.node? id).bind (·.parent)

def firstChild? (t : ThreadedDocument) (id : NodeId) : Option NodeId :=
  (t.node? id).bind (·.firstChild)

def lastChild? (t : ThreadedDocument) (id : NodeId) : Option NodeId :=
  (t.node? id).bind (·.lastChild)

def previous? (t : ThreadedDocument) (id : NodeId) : Option NodeId :=
  (t.node? id).bind (·.previous)

def next? (t : ThreadedDocument) (id : NodeId) : Option NodeId :=
  (t.node? id).bind (·.next)

def create (t : ThreadedDocument) (data : NodeData) : NodeId × ThreadedDocument :=
  let (id, nodes) := t.nodes.insert ⟨data, none, none, none, none, none⟩
  (id, ⟨nodes⟩)

def modify (t : ThreadedDocument) (id : NodeId) (f : ThreadedNode → ThreadedNode) :
    ThreadedDocument :=
  ⟨t.nodes.modify id f⟩

def modifyElement (t : ThreadedDocument) (id : NodeId) (f : Element → Element) :
    ThreadedDocument :=
  t.modify id fun n => { n with data := n.data.mapElement f }

def height (t : ThreadedDocument) : Nat :=
  t.nodes.slots.size

def ancestorsWithin (t : ThreadedDocument) : Nat → NodeId → List NodeId
  | 0, _ => []
  | steps + 1, id =>
      match t.parent? id with
      | none => []
      | some p => p :: t.ancestorsWithin steps p

def isInclusiveAncestor (t : ThreadedDocument) (ancestor id : NodeId) : Bool :=
  ancestor == id || (t.ancestorsWithin t.height id).contains ancestor

def onwards (t : ThreadedDocument) : Nat → Option NodeId → List NodeId
  | 0, _ => []
  | _, none => []
  | steps + 1, some id => id :: t.onwards steps (t.next? id)

def children (t : ThreadedDocument) (id : NodeId) : List NodeId :=
  t.onwards t.height (t.firstChild? id)

def backwards (t : ThreadedDocument) : Nat → Option NodeId → List NodeId
  | 0, _ => []
  | _, none => []
  | steps + 1, some id => id :: t.backwards steps (t.previous? id)

def isElement (t : ThreadedDocument) (id : NodeId) : Bool :=
  ((t.node? id).bind (·.data.element?)).isSome

def precedingElements (t : ThreadedDocument) (id : NodeId) : List NodeId :=
  (t.backwards t.height (t.previous? id)).filter t.isElement

def followingElements (t : ThreadedDocument) (id : NodeId) : List NodeId :=
  (t.onwards t.height (t.next? id)).filter t.isElement

def visit (t : ThreadedDocument) : Nat → List NodeId → List NodeId
  | 0, _ => []
  | _, [] => []
  | steps + 1, id :: stack => id :: t.visit steps (t.children id ++ stack)

def descendants (t : ThreadedDocument) (id : NodeId) : List NodeId :=
  t.visit t.height (t.children id)

def putNext (t : ThreadedDocument) (parent : NodeId) (previous next : Option NodeId) :
    ThreadedDocument :=
  match previous with
  | some p => t.modify p fun n => { n with next }
  | none => t.modify parent fun n => { n with firstChild := next }

def putPrevious (t : ThreadedDocument) (parent : NodeId) (previous next : Option NodeId) :
    ThreadedDocument :=
  match next with
  | some c => t.modify c fun n => { n with previous }
  | none => t.modify parent fun n => { n with lastChild := previous }

def detach (t : ThreadedDocument) (id : NodeId) : ThreadedDocument :=
  match t.parent? id with
  | none => t
  | some parent =>
      let previous := t.previous? id
      let next := t.next? id
      ((t.putNext parent previous next).putPrevious parent previous next).modify id fun n =>
        { n with parent := none, previous := none, next := none }

def canInsert (t : ThreadedDocument) (parent child : NodeId) (before : Option NodeId) : Bool :=
  t.contains parent && t.contains child && !t.isInclusiveAncestor child parent &&
    match before with
    | none => true
    | some r => r != child && t.parent? r == some parent

def lastBefore (t : ThreadedDocument) (parent : NodeId) : Option NodeId → Option NodeId
  | some r => t.previous? r
  | none => t.lastChild? parent

def link (t : ThreadedDocument) (parent child : NodeId) (before : Option NodeId) :
    ThreadedDocument :=
  let previous := t.lastBefore parent before
  ((t.modify child fun n => { n with parent := some parent, previous, next := before }).putNext
    parent previous (some child)).putPrevious parent (some child) before

def insertBefore (t : ThreadedDocument) (parent child : NodeId) (before : Option NodeId) :
    Bool × ThreadedDocument :=
  if t.canInsert parent child before then (true, (t.detach child).link parent child before)
  else (false, t)

def append (t : ThreadedDocument) (parent child : NodeId) : Bool × ThreadedDocument :=
  t.insertBefore parent child none

def removeSubtree (t : ThreadedDocument) (id : NodeId) : List NodeId × ThreadedDocument :=
  if t.contains id then
    let t := t.detach id
    let freed := id :: t.descendants id
    (freed, ⟨freed.foldl SlotMap.erase t.nodes⟩)
  else ([], t)

end ThreadedDocument

end CssStyling
