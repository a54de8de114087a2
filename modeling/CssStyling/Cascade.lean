import CssStyling.Matching
import CssStyling.Selector.Reader
import CssStyling.Store.Write

namespace CssStyling

structure Declaration where
  property : String
  value : Value
  important : Bool
  deriving Repr

namespace Origin

def rank : Origin → UInt8
  | userAgent => 0
  | user => 1
  | author => 2
  | inline => 3

def importantRank : Origin → UInt8
  | author => 0
  | inline => 1
  | user => 2
  | userAgent => 3

end Origin

namespace Declaration

def make (property : String) (value : Value) (important : Bool) : Declaration :=
  ⟨Ascii.lower property, value, important⟩

def level (d : Declaration) (origin : Origin) : Bool × UInt8 :=
  if d.important then (true, origin.importantRank) else (false, origin.rank)

end Declaration

structure Rule where
  selectors : SelectorList
  declarations : List Declaration
  origin : Origin
  source : Nat
  deriving Repr

namespace Rule

def ofText (selectors : String) (declarations : List Declaration) (origin : Origin)
    (source : Nat) : Except SyntaxError Rule :=
  (SelectorList.ofText selectors).map (⟨·, declarations, origin, source⟩)

end Rule

structure MatchedRule where
  rule : Rule
  selector : Complex
  specificity : Specificity
  order : Nat
  deriving Repr

namespace MatchedRule

def mostSpecific? : List Complex → Option Complex
  | [] => none
  | s :: ss =>
      match mostSpecific? ss with
      | none => some s
      | some t => if compare s.specificity t.specificity = .gt then some s else some t

def ofRule? (c : MatchingContext) (d : Document) (id : NodeId) (order : Nat) (rule : Rule) :
    Option MatchedRule :=
  (mostSpecific? (rule.selectors.members.filter (Matching.complex c d · id))).map fun s =>
    ⟨rule, s, s.specificity, order⟩

def collectFrom (c : MatchingContext) (d : Document) (id : NodeId) :
    Nat → List Rule → List MatchedRule
  | _, [] => []
  | order, rule :: rules =>
      (ofRule? c d id order rule).toList ++ collectFrom c d id (order + 1) rules

def collect (c : MatchingContext) (d : Document) (id : NodeId) (rules : List Rule) :
    List MatchedRule :=
  collectFrom c d id 0 rules

def provenance (m : MatchedRule) : Provenance :=
  (Provenance.make m.rule.origin m.rule.source).withSelector m.selector

end MatchedRule

structure Candidate where
  declaration : Declaration
  matched : MatchedRule
  deriving Repr

namespace Candidate

def level (c : Candidate) : Bool × UInt8 :=
  c.declaration.level c.matched.rule.origin

def cmp (c c' : Candidate) : Ordering :=
  (compareLex (compareOn Prod.fst) (compareOn Prod.snd) c.level c'.level).then
    ((compare c.matched.specificity c'.matched.specificity).then
      (compare c.matched.order c'.matched.order))

instance : Ord Candidate where
  compare := cmp

def ofMatched (matched : List MatchedRule) : List Candidate :=
  matched.flatMap fun m => m.rule.declarations.map (⟨·, m⟩)

def property? (r : PropertyRegistry) (c : Candidate) : Option PropertyId :=
  (r.id? c.declaration.property).filter fun id =>
    (r.get? id).any fun p => (p.check c.declaration.value).isOk

def eligible (r : PropertyRegistry) (cs : List Candidate) : List (PropertyId × Candidate) :=
  cs.filterMap fun c => (c.property? r).map (·, c)

def better (held : Option Candidate) (c : Candidate) : Option Candidate :=
  match held with
  | none => some c
  | some h => if compare c h = .lt then some h else some c

def best? (cs : List Candidate) : Option Candidate :=
  cs.foldl better none

def winner? (es : List (PropertyId × Candidate)) (id : PropertyId) : Option Candidate :=
  best? ((es.filter (·.1 == id)).map Prod.snd)

def source (c : Candidate) : PropertySlot :=
  .ofValue c.declaration.value (some c.matched.provenance)

end Candidate

namespace StyleM

def ruled (s : Store) (e : NodeId) : List PropertyId :=
  ((s.slots e).filter fun entry => entry.2.provenance.any (·.selector.isSome)).map Prod.fst

def countChange (change : StyleM Bool) : StyleM Nat := do
  return if ← change then 1 else 0

def resetAll (e : NodeId) : List PropertyId → StyleM Nat
  | [] => return 0
  | id :: ids => do
      match (← store).registry.get? id with
      | none => resetAll e ids
      | some p =>
          let n ← countChange (reset e p.name)
          return n + (← resetAll e ids)

def overwriteAll (e : NodeId) : List Candidate → StyleM Nat
  | [] => return 0
  | c :: cs => do
      let n ← countChange (overwrite e c.declaration.property c.source)
      return n + (← overwriteAll e cs)

def applyMatched (e : NodeId) (matched : List MatchedRule) : StyleM Nat := do
  let s ← store
  let winner := Candidate.winner? (Candidate.eligible s.registry (Candidate.ofMatched matched))
  let n ← resetAll e ((ruled s e).filter fun id => (winner id).isNone)
  let m ← overwriteAll e ((List.range s.registry.size).filterMap winner)
  return n + m

def ensure (d : Document) (id : NodeId) : StyleM Unit := do
  if !(← store).contains id then apply fun s => s.insert id (s.knownParent? d id)

def cascadeAll (c : MatchingContext) (d : Document) (rules : List Rule) :
    List NodeId → StyleM Nat
  | [] => return 0
  | id :: ids => do
      ensure d id
      let n ← applyMatched id (MatchedRule.collect c d id rules)
      return n + (← cascadeAll c d rules ids)

def cascadeTree (c : MatchingContext) (d : Document) (rules : List Rule) (top : NodeId) :
    StyleM Nat := do
  if !(← store).contains top then applyPartial (·.insertTree d top)
  cascadeAll c d rules (d.subtreeElements top)

end StyleM

end CssStyling
