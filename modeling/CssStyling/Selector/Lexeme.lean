import CssStyling.Selector.SyntaxError
import CssStyling.Token.Cursor

namespace CssStyling

namespace Cursor

def error (c : Cursor) (cause : SyntaxError.Cause) : SyntaxError :=
  ⟨cause, c.next, c.position⟩

end Cursor

namespace Lexeme

def combinator? : List Token → Option (Combinator × Nat)
  | .delim '>' :: .delim '>' :: _ => some (.descendant, 2)
  | .delim '>' :: _ => some (.child, 1)
  | .delim '+' :: _ => some (.nextSibling, 1)
  | .delim '~' :: _ => some (.subsequentSibling, 1)
  | .column :: _ => some (.column, 1)
  | _ => none

def namespaceMark? : List Token → Option (NamespacePattern × Nat)
  | .ident label :: .delim '|' :: _ => some (.labelled label, 2)
  | .delim '*' :: .delim '|' :: _ => some (.any, 2)
  | .delim '|' :: _ => some (.none, 1)
  | _ => none

structure Place where
  covered : Nat
  depth : Nat
  inBrackets : Bool
  separated : Bool
  space : Option Nat
  deriving DecidableEq, Repr

namespace Place

def start : Place :=
  ⟨0, 0, false, true, none⟩

def depthAfter (depth : Nat) (token : Token) : Nat :=
  if token.opensGroup then depth + 1
  else if token.closesGroup then depth - 1
  else depth

def bracketsAfter (inBrackets : Bool) : Token → Bool
  | .openBracket => true
  | .closeBracket => false
  | _ => inBrackets

end Place

def endsCompound : Token → Bool
  | .comma => true
  | .column => true
  | .delim c => c == '>' || c == '+' || c == '~'
  | _ => false

def separates : Token → Bool
  | .comma => true
  | .combinator _ => true
  | _ => false

def gap (place : Place) (token : Token) : List Lexeme :=
  match place.space with
  | none => []
  | some position =>
      if place.separated || endsCompound token then []
      else [⟨.combinator .descendant, position⟩]

def composed (inBrackets : Bool) (token : Token) (rest : List Token) : Token × Nat :=
  match if inBrackets then none else combinator? (token :: rest) with
  | some (combinator, width) => (.combinator combinator, width)
  | none => match namespaceMark? (token :: rest) with
      | some (pattern, width) => (.namespaceMark pattern, width)
      | none => (token, 1)

def mark (place : Place) (position : Nat) : List Token → Cursor
  | [] => ⟨[], position⟩
  | token :: rest =>
      if token.isEof then ⟨[], position⟩
      else if 0 < place.covered then
        mark { place with covered := place.covered - 1 } (position + 1) rest
      else if 0 < place.depth then
        let after := mark { place with depth := Place.depthAfter place.depth token }
          (position + 1) rest
        ⟨⟨token, position⟩ :: after.items, after.finish⟩
      else if token.isWhitespace && !place.inBrackets then
        mark { place with space := place.space.or (some position) } (position + 1) rest
      else
        let (emitted, width) := composed place.inBrackets token rest
        let after := mark
          { covered := width - 1
            depth := if emitted.opensGroup then 1 else 0
            inBrackets := Place.bracketsAfter place.inBrackets emitted
            separated := separates emitted
            space := none } (position + 1) rest
        ⟨gap place token ++ ⟨emitted, position⟩ :: after.items, after.finish⟩

def fuse (finish : Nat) : List Lexeme → Except SyntaxError (List Lexeme)
  | [] => .ok []
  | ⟨.namespaceMark pattern, position⟩ :: ⟨.ident name, _⟩ :: rest =>
      match fuse finish rest with
      | .error e => .error e
      | .ok items => .ok (⟨.qualifiedName pattern (some name), position⟩ :: items)
  | ⟨.namespaceMark pattern, position⟩ :: ⟨.delim '*', _⟩ :: rest =>
      match fuse finish rest with
      | .error e => .error e
      | .ok items => .ok (⟨.qualifiedName pattern none, position⟩ :: items)
  | ⟨.namespaceMark _, _⟩ :: rest => .error (Cursor.error ⟨rest, finish⟩ .missingLocalName)
  | lexeme :: rest =>
      match fuse finish rest with
      | .error e => .error e
      | .ok items => .ok (lexeme :: items)

end Lexeme

namespace Cursor

def prepare (tokens : List Token) : Except SyntaxError Cursor :=
  let marked := Lexeme.mark .start 0 tokens
  match Lexeme.fuse marked.finish marked.items with
  | .error e => .error e
  | .ok items => .ok ⟨items, marked.finish⟩

end Cursor

end CssStyling
