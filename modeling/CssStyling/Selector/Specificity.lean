import CssStyling.Selector.Simple

namespace CssStyling

structure Specificity where
  ids : Nat
  classes : Nat
  types : Nat
  deriving DecidableEq, Repr

namespace Specificity

def zero : Specificity :=
  ⟨0, 0, 0⟩

def limit : Nat :=
  4294967295

def add (s t : Specificity) : Specificity :=
  ⟨min (s.ids + t.ids) limit, min (s.classes + t.classes) limit, min (s.types + t.types) limit⟩

instance : Add Specificity where
  add := add

def cmp (s t : Specificity) : Ordering :=
  (compare s.ids t.ids).then ((compare s.classes t.classes).then (compare s.types t.types))

instance : Ord Specificity where
  compare := cmp

def maximum (ss : List Specificity) : Specificity :=
  ss.foldl (fun m s => if compare m s = .gt then m else s) zero

def ofSimple : Simple → Specificity
  | .identifier _ => ⟨1, 0, 0⟩
  | .className _ => ⟨0, 1, 0⟩
  | .attributeTest _ _ _ => ⟨0, 1, 0⟩
  | .pseudoClass _ _ => ⟨0, 1, 0⟩
  | .type _ _ => ⟨0, 0, 1⟩
  | .pseudoElement _ _ => ⟨0, 0, 1⟩
  | .universal _ => zero

def text (s : Specificity) : String :=
  s!"({s.ids},{s.classes},{s.types})"

end Specificity

end CssStyling
