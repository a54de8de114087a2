import CssStyling.Selector.Specificity

namespace CssStyling

structure Compound where
  simples : List Simple
  deriving BEq, Repr

namespace Compound

def size (c : Compound) : Nat :=
  c.simples.length

def isEmpty (c : Compound) : Bool :=
  c.simples.isEmpty

end Compound

structure Step where
  compound : Compound
  combinator : Combinator
  deriving BEq, Repr

structure Complex where
  ancestors : List Step
  subject : Compound
  specificity : Specificity
  deriving Repr

namespace Complex

instance : BEq Complex where
  beq s t := s.ancestors == t.ancestors && s.subject == t.subject

def steps (s : Complex) : List Step :=
  s.ancestors ++ [⟨s.subject, .none⟩]

def size (s : Complex) : Nat :=
  s.ancestors.length + 1

def isEmpty (s : Complex) : Bool :=
  s.size == 0

def step? (s : Complex) (i : Nat) : Option Step :=
  match compare i s.ancestors.length with
  | .lt => s.ancestors[i]?
  | .eq => some ⟨s.subject, .none⟩
  | .gt => none

def simples (s : Complex) : List Simple :=
  s.steps.flatMap (·.compound.simples)

def countedSpecificity (s : Complex) : Specificity :=
  (s.simples.map Specificity.ofSimple).foldl (· + ·) .zero

end Complex

structure SelectorList where
  members : List Complex
  deriving BEq, Repr

namespace SelectorList

def size (l : SelectorList) : Nat :=
  l.members.length

def isEmpty (l : SelectorList) : Bool :=
  l.members.isEmpty

def get? (l : SelectorList) (i : Nat) : Option Complex :=
  l.members[i]?

def maxSpecificity (l : SelectorList) : Specificity :=
  Specificity.maximum (l.members.map (·.specificity))

end SelectorList

end CssStyling
