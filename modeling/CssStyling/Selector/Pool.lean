import CssStyling.Selector.Printer
import CssStyling.SlotMap

namespace CssStyling

structure CompoundNode where
  simples : List Key
  deriving Repr

structure StepNode where
  compound : Key
  combinator : Combinator
  deriving Repr

structure ComplexNode where
  ancestors : List StepNode
  subject : Key
  specificity : Specificity
  deriving Repr

structure SelectorPool where
  simples : SlotMap Simple
  compounds : SlotMap CompoundNode
  complexes : SlotMap ComplexNode
  deriving Repr

namespace SelectorPool

def empty : SelectorPool :=
  ⟨.empty, .empty, .empty⟩

def addSimple (p : SelectorPool) (s : Simple) : Key × SelectorPool :=
  let (key, simples) := p.simples.insert s
  (key, { p with simples })

def addLeading (p : SelectorPool) : Option Simple → List Key × SelectorPool
  | none => ([], p)
  | some s =>
      let (key, p) := p.addSimple s
      ([key], p)

def addCompound (p : SelectorPool) (node : CompoundNode) : Key × SelectorPool :=
  let (key, compounds) := p.compounds.insert node
  (key, { p with compounds })

def addComplex (p : SelectorPool) (node : ComplexNode) : Key × SelectorPool :=
  let (key, complexes) := p.complexes.insert node
  (key, { p with complexes })

end SelectorPool

structure CompoundHandle where
  pool : SelectorPool
  key : Key

namespace CompoundHandle

def node (c : CompoundHandle) : Except StaleKey CompoundNode :=
  c.pool.compounds.find c.key

def simples (c : CompoundHandle) : Except StaleKey (List Simple) := do
  (← c.node).simples.mapM c.pool.simples.find

def size (c : CompoundHandle) : Except StaleKey Nat :=
  return (← c.node).simples.length

def isEmpty (c : CompoundHandle) : Except StaleKey Bool :=
  return (← c.size) == 0

def value (c : CompoundHandle) : Except StaleKey Compound :=
  return ⟨← c.simples⟩

def equals (c d : CompoundHandle) : Except StaleKey Bool :=
  return (← c.value) == (← d.value)

def text (c : CompoundHandle) : Except StaleKey String :=
  return (← c.value).text

def diagnostic (c : CompoundHandle) : Except StaleKey String :=
  return (← c.value).diagnostic

end CompoundHandle

structure StepHandle where
  compound : CompoundHandle
  combinator : Combinator

namespace StepHandle

def value (s : StepHandle) : Except StaleKey Step :=
  return ⟨← s.compound.value, s.combinator⟩

end StepHandle

structure ComplexHandle where
  pool : SelectorPool
  key : Key

namespace ComplexHandle

def node (s : ComplexHandle) : Except StaleKey ComplexNode :=
  s.pool.complexes.find s.key

def size (s : ComplexHandle) : Except StaleKey Nat :=
  return (← s.node).ancestors.length + 1

def ancestorStep (s : ComplexHandle) (node : StepNode) : StepHandle :=
  ⟨⟨s.pool, node.compound⟩, node.combinator⟩

def subjectStep (s : ComplexHandle) (node : ComplexNode) : StepHandle :=
  ⟨⟨s.pool, node.subject⟩, .none⟩

def step? (s : ComplexHandle) (i : Nat) : Except StaleKey (Option StepHandle) := do
  let node ← s.node
  match compare i node.ancestors.length with
  | .lt => return node.ancestors[i]?.map s.ancestorStep
  | .eq => return some (s.subjectStep node)
  | .gt => return none

def steps (s : ComplexHandle) : Except StaleKey (List StepHandle) := do
  let node ← s.node
  return node.ancestors.map s.ancestorStep ++ [s.subjectStep node]

def subject (s : ComplexHandle) : Except StaleKey CompoundHandle :=
  return ⟨s.pool, (← s.node).subject⟩

def specificity (s : ComplexHandle) : Except StaleKey Specificity :=
  return (← s.node).specificity

def stepValues (s : ComplexHandle) : Except StaleKey (List Step) := do
  (← s.steps).mapM StepHandle.value

def countedSpecificity (s : ComplexHandle) : Except StaleKey Specificity := do
  let simples := (← s.stepValues).flatMap (·.compound.simples)
  return (simples.map Specificity.ofSimple).foldl (· + ·) .zero

def equals (s t : ComplexHandle) : Except StaleKey Bool := do
  if (← s.size) == (← t.size) then
    return (← s.stepValues) == (← t.stepValues)
  else
    return false

def chars (s : ComplexHandle) : Except StaleKey (List Char) :=
  return (← s.stepValues).flatMap fun step => step.compound.chars ++ step.combinator.chars

def text (s : ComplexHandle) : Except StaleKey String :=
  return String.ofList (← s.chars)

def diagnostic (s : ComplexHandle) : Except StaleKey String :=
  return "ComplexSelector(" ++ (← s.text) ++ ")"

end ComplexHandle

structure SelectorListHandle where
  pool : SelectorPool
  members : List Key

namespace SelectorListHandle

def size (l : SelectorListHandle) : Nat :=
  l.members.length

def isEmpty (l : SelectorListHandle) : Bool :=
  l.members.isEmpty

def get? (l : SelectorListHandle) (i : Nat) : Option ComplexHandle :=
  l.members[i]?.map (⟨l.pool, ·⟩)

def toList (l : SelectorListHandle) : List ComplexHandle :=
  l.members.map (⟨l.pool, ·⟩)

def maxSpecificity (l : SelectorListHandle) : Except StaleKey Specificity :=
  return Specificity.maximum (← l.toList.mapM ComplexHandle.specificity)

def equals (l m : SelectorListHandle) : Except StaleKey Bool := do
  if l.size == m.size then
    return (← (l.toList.zip m.toList).mapM fun (s, t) => s.equals t).all id
  else
    return false

def text (l : SelectorListHandle) : Except StaleKey String :=
  return String.ofList (SelectorList.separated (← l.toList.mapM ComplexHandle.chars))

def diagnostic (l : SelectorListHandle) : Except StaleKey String :=
  return "SelectorList(" ++ (← l.text) ++ ")"

end SelectorListHandle

end CssStyling
