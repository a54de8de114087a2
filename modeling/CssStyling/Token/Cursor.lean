import CssStyling.Token

namespace CssStyling

structure Lexeme where
  token : Token
  position : Nat
  deriving Repr

namespace Lexeme

def skipSpace (items : List Lexeme) : List Lexeme :=
  items.dropWhile (·.token.isWhitespace)

end Lexeme

structure Cursor where
  items : List Lexeme
  finish : Nat
  deriving Repr

namespace Cursor

def ofTokens (tokens : List Token) : Cursor :=
  ⟨tokens.zipIdx.map fun (token, position) => ⟨token, position⟩, tokens.length⟩

def peek (c : Cursor) (n : Nat) : Token :=
  match c.items[n]? with
  | some lexeme => lexeme.token
  | none => .eof

def next (c : Cursor) : Token :=
  c.peek 0

def position (c : Cursor) : Nat :=
  match c.items with
  | [] => c.finish
  | lexeme :: _ => lexeme.position

def atEnd (c : Cursor) : Bool :=
  c.next.isEof

def advance (c : Cursor) (n : Nat) : Cursor :=
  { c with items := c.items.drop n }

def consume (c : Cursor) : Token × Cursor :=
  (c.next, c.advance 1)

def eat (c : Cursor) (expected : Token) : Bool × Cursor :=
  if c.next == expected then (true, c.advance 1) else (false, c)

def skipSpace (c : Cursor) : Cursor :=
  { c with items := Lexeme.skipSpace c.items }

theorem peek_advance (c : Cursor) (m n : Nat) : (c.advance m).peek n = c.peek (m + n) := by
  rw [peek, advance, List.getElem?_drop, peek]

theorem advance_advance (c : Cursor) (m n : Nat) :
    (c.advance m).advance n = c.advance (m + n) := by
  simp only [advance, List.drop_drop]

theorem peek_ofTokens (tokens : List Token) (n : Nat) :
    (ofTokens tokens).peek n = tokens[n]?.getD .eof := by
  simp only [peek, ofTokens, List.getElem?_map, List.getElem?_zipIdx]
  cases tokens[n]? <;> rfl

theorem position_advance (tokens : List Token) (n : Nat) :
    ((ofTokens tokens).advance n).position = min n tokens.length := by
  rcases Nat.lt_or_ge n tokens.length with h | h
  · have inside : n < (ofTokens tokens).items.length := by simpa [ofTokens] using h
    simp only [position, advance, List.drop_eq_getElem_cons inside]
    simp [ofTokens, Nat.min_eq_left (Nat.le_of_lt h)]
  · have passed : (ofTokens tokens).items.drop n = [] := by simpa [ofTokens] using h
    simp only [position, advance, passed]
    exact (Nat.min_eq_right h).symm

theorem skipSpace_eq_advance (c : Cursor) :
    c.skipSpace = c.advance (c.items.takeWhile (·.token.isWhitespace)).length := by
  have passed := @List.drop_left _ (c.items.takeWhile (·.token.isWhitespace))
    (c.items.dropWhile (·.token.isWhitespace))
  rw [List.takeWhile_append_dropWhile] at passed
  rw [skipSpace, Lexeme.skipSpace, advance, passed]

end Cursor

end CssStyling
