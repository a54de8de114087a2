import CssStyling.Document.Element
import CssStyling.SlotMap

namespace CssStyling

abbrev NodeId := Key

inductive NodeData where
  | document
  | element (element : Element)
  | text (content : String)
  deriving DecidableEq, Repr

namespace NodeData

def element? : NodeData → Option Element
  | element e => some e
  | _ => none

def text? : NodeData → Option String
  | text t => some t
  | _ => none

end NodeData

structure Node where
  data : NodeData
  parent : Option NodeId
  children : List NodeId
  deriving Repr

structure Document where
  nodes : SlotMap Node
  deriving Repr

namespace Document

def empty : Document :=
  ⟨.empty⟩

instance : Inhabited Document :=
  ⟨empty⟩

def size (d : Document) : Nat :=
  d.nodes.size

def isEmpty (d : Document) : Bool :=
  d.nodes.isEmpty

def node? (d : Document) (id : NodeId) : Option Node :=
  d.nodes.get? id

def contains (d : Document) (id : NodeId) : Bool :=
  d.nodes.contains id

def element? (d : Document) (id : NodeId) : Option Element :=
  (d.node? id).bind (·.data.element?)

def isElement (d : Document) (id : NodeId) : Bool :=
  (d.element? id).isSome

def parent? (d : Document) (id : NodeId) : Option NodeId :=
  (d.node? id).bind (·.parent)

def children (d : Document) (id : NodeId) : List NodeId :=
  match d.node? id with
  | some node => node.children
  | none => []

def create (d : Document) (data : NodeData) : NodeId × Document :=
  let (id, nodes) := d.nodes.insert ⟨data, none, []⟩
  (id, ⟨nodes⟩)

def modifyElement (d : Document) (id : NodeId) (f : Element → Element) : Document :=
  ⟨d.nodes.modify id fun node => match node.data with
    | .element e => { node with data := .element (f e) }
    | _ => node⟩

end Document

end CssStyling
