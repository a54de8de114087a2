import CssStyling.Selector.Pool
import CssStyling.Selector.Reader

namespace CssStyling

structure Pooled (α : Type) (items : List Lexeme) where
  found : α
  pool : SelectorPool
  rest : List Lexeme
  le : rest.length ≤ items.length

theorem Pooled.lt_of_cons {α : Type} {items rest : List Lexeme} {lexeme : Lexeme}
    (k : Pooled α items) (h : k.rest = lexeme :: rest) : rest.length < items.length := by
  have le := k.le
  rw [h] at le
  exact le

namespace Grammar

def keepSimples (finish : Nat) (p : SelectorPool) (total : Specificity) (items : List Lexeme) :
    Except SyntaxError (Pooled (List Key × Specificity) items) :=
  match h : simple? finish items with
  | .error e => .error e
  | .ok none => .ok ⟨([], total), p, items, Nat.le_refl _⟩
  | .ok (some (simple, rest)) =>
      let (key, p) := p.addSimple simple
      match keepSimples finish p (total + .ofSimple simple) rest with
      | .error e => .error e
      | .ok others =>
          .ok ⟨(key :: others.found.1, others.found.2), others.pool, others.rest,
            Nat.le_trans others.le (Nat.le_of_lt (simple_length_lt h))⟩
termination_by items.length
decreasing_by exact simple_length_lt h

def keepCompound (finish : Nat) (p : SelectorPool) (total : Specificity) (items : List Lexeme) :
    Except SyntaxError (Pooled (Key × Specificity) items) :=
  match h : leading finish items with
  | .error e => .error e
  | .ok (first, rest) =>
      let (front, p) := p.addLeading first
      match keepSimples finish p (first.elim total (total + .ofSimple ·)) rest with
      | .error e => .error e
      | .ok others =>
          match front ++ others.found.1 with
          | [] => unexpected finish others.rest
          | keys =>
              let (key, p) := others.pool.addCompound ⟨keys⟩
              .ok ⟨(key, others.found.2), p, others.rest,
                Nat.le_trans others.le (leading_length_le h)⟩

def keepSteps (finish : Nat) (p : SelectorPool) (total : Specificity) (items : List Lexeme) :
    Except SyntaxError (Pooled ComplexNode items) :=
  match keepCompound finish p total items with
  | .error e => .error e
  | .ok first =>
      match h : first.rest with
      | ⟨.combinator combinator, position⟩ :: rest =>
          if endsMember rest then
            fail finish .danglingCombinator (⟨.combinator combinator, position⟩ :: rest)
          else
            match keepSteps finish first.pool first.found.2 rest with
            | .error e => .error e
            | .ok others =>
                .ok ⟨{ others.found with
                    ancestors := ⟨first.found.1, combinator⟩ :: others.found.ancestors },
                  others.pool, others.rest,
                  Nat.le_trans others.le (Nat.le_of_lt (first.lt_of_cons h))⟩
      | _ => .ok ⟨⟨[], first.found.1, first.found.2⟩, first.pool, first.rest, first.le⟩
termination_by items.length
decreasing_by exact first.lt_of_cons h

def keepComplex (finish : Nat) (p : SelectorPool) (items : List Lexeme) :
    Except SyntaxError (Pooled Key items) :=
  if endsMember items then fail finish .emptySelector items
  else
    match keepSteps finish p .zero items with
    | .error e => .error e
    | .ok steps =>
        let (key, p) := steps.pool.addComplex steps.found
        .ok ⟨key, p, steps.rest, steps.le⟩

def keepMembers (finish : Nat) (p : SelectorPool) (items : List Lexeme) :
    Except SyntaxError (List Key × SelectorPool) :=
  match keepComplex finish p items with
  | .error e => .error e
  | .ok first =>
      match _h : first.rest with
      | [] => .ok ([first.found], first.pool)
      | ⟨.comma, _⟩ :: rest =>
          match keepMembers finish first.pool rest with
          | .error e => .error e
          | .ok (others, p) => .ok (first.found :: others, p)
      | rest => fail finish .unexpectedToken rest
termination_by items.length
decreasing_by exact first.lt_of_cons _h

end Grammar

namespace SelectorListHandle

def ofTokens (tokens : List Token) : Except SyntaxError SelectorListHandle :=
  match Cursor.prepare tokens with
  | .error e => .error e
  | .ok lexemes =>
      (Grammar.keepMembers lexemes.finish .empty lexemes.items).map fun (keys, pool) => ⟨pool, keys⟩

end SelectorListHandle

end CssStyling
