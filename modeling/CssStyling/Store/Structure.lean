import CssStyling.Document.Traversal
import CssStyling.Store.Invalidation

namespace CssStyling.Store

def lineage (s : Store) : Nat → NodeId → List NodeId
  | 0, e => [e]
  | steps + 1, e =>
      match s.parent? e with
      | none => [e]
      | some p => e :: s.lineage steps p

def isInclusiveAncestor (s : Store) (ancestor e : NodeId) : Bool :=
  (s.lineage s.size e).contains ancestor

def writeParent (s : Store) (e : NodeId) (parent : Option NodeId) : Store :=
  s.modifyElement e fun element => { element with parent }

def detach (s : Store) (e : NodeId) : Store :=
  match s.parent? e with
  | some p => s.dropDependent p e
  | none => s

def relink (s : Store) (e : NodeId) (parent : Option NodeId) : Store :=
  ((s.detach e).writeParent e parent).invalidateElement e

def setParent (s : Store) (e : NodeId) (parent : Option NodeId) : Except StyleError Store :=
  match s.element? e with
  | none => .error (.unknownElement e)
  | some element =>
      match parent with
      | none => .ok (if element.parent = none then s else s.relink e none)
      | some p =>
          if !s.contains p then .error (.unknownElement p)
          else if s.isInclusiveAncestor e p then .error (.invalidParent e p)
          else .ok (if element.parent = some p then s else s.relink e (some p))

def add (s : Store) (e : NodeId) (parent : Option NodeId) : Store :=
  { s with elements := s.elements.insert e ⟨parent, ∅⟩ }

def insert (s : Store) (e : NodeId) (parent : Option NodeId) : Except StyleError Store :=
  if s.contains e then s.setParent e parent
  else match parent.filter (!s.contains ·) with
    | some p => .error (.unknownElement p)
    | none => .ok (s.add e parent)

def childrenOf (s : Store) (e : NodeId) : List NodeId :=
  (s.elements.toList.filter fun entry => entry.2.parent == some e).map Prod.fst

def orphan (s : Store) (e : NodeId) : Store :=
  (s.writeParent e none).invalidateElement e

def erase (s : Store) (e : NodeId) : Store :=
  { s with elements := s.elements.erase e }

def remove (s : Store) (e : NodeId) : Except StyleError Store :=
  if s.contains e then
    let s := ((s.invalidateElement e).detach e).erase e
    .ok ((s.childrenOf e).foldl orphan s)
  else .error (.unknownElement e)

def knownParent? (s : Store) (d : Document) (id : NodeId) : Option NodeId :=
  (d.parentElement? id).filter s.contains

def insertAll (d : Document) : List NodeId → Store → Except StyleError Unit × Store
  | [], s => (.ok (), s)
  | id :: ids, s =>
      if d.isElement id then
        match s.insert id (s.knownParent? d id) with
        | .error e => (.error e, s)
        | .ok s' => insertAll d ids s'
      else insertAll d ids s

def insertTree (s : Store) (d : Document) (top : NodeId) : Except StyleError Unit × Store :=
  if d.isElement top then
    match s.insert top none with
    | .error e => (.error e, s)
    | .ok s' => insertAll d (d.descendants top) s'
  else insertAll d (d.descendants top) s

end CssStyling.Store
