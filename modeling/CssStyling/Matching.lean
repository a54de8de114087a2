import CssStyling.Matching.Simple
import CssStyling.Selector

namespace CssStyling

namespace Document

def anyAncestorWithin (d : Document) (p : NodeId → Bool) : Nat → NodeId → Bool
  | 0, _ => false
  | steps + 1, id =>
      match d.parentElement? id with
      | none => false
      | some parent => p parent || d.anyAncestorWithin p steps parent

def anyRelated (d : Document) (p : NodeId → Bool) (id : NodeId) : Combinator → Bool
  | .child => (d.parentElement? id).any p
  | .descendant => d.anyAncestorWithin p d.height id
  | .nextSibling => (d.previousElement? id).any p
  | .subsequentSibling => (d.precedingElements id).any p
  | .column => false
  | .none => false

end Document

namespace Matching

variable (c : MatchingContext) (d : Document)

def compound (id : NodeId) (s : Compound) : Bool :=
  match d.element? id with
  | some e => s.simples.all (simple c d id e)
  | none => false

def leftward : List Step → NodeId → Bool
  | [], _ => true
  | step :: steps, id =>
      d.anyRelated (fun e => compound c d e step.compound && leftward steps e) id step.combinator

def complex (s : Complex) (id : NodeId) : Bool :=
  compound c d id s.subject && leftward c d s.ancestors.reverse id

def selectorList (l : SelectorList) (id : NodeId) : Bool :=
  l.members.any (complex c d · id)

end Matching

end CssStyling
