
namespace CssStyling

inductive Combinator where
  | none
  | descendant
  | child
  | nextSibling
  | subsequentSibling
  | column
  deriving DecidableEq, Repr

inductive NamespacePattern where
  | omitted
  | any
  | none
  | labelled (label : String)
  deriving DecidableEq, Repr

inductive Token where
  | ident (name : String)
  | function (name : String)
  | hash (value : String) (isId : Bool)
  | string (value : String)
  | number (value : Float) (isInteger signed : Bool)
  | percentage (value : Float)
  | dimension (value : Float) (unit : String)
  | whitespace
  | colon
  | comma
  | openBracket
  | closeBracket
  | openParen
  | closeParen
  | includeMatch
  | dashMatch
  | startMatch
  | endMatch
  | substringMatch
  | column
  | delim (char : Char)
  | eof
  | namespaceMark (pattern : NamespacePattern)
  | qualifiedName (pattern : NamespacePattern) (localName : Option String)
  | combinator (combinator : Combinator)
  deriving BEq, Repr

namespace Token

def isWhitespace : Token → Bool
  | whitespace => true
  | _ => false

def isEof : Token → Bool
  | eof => true
  | _ => false

def isDelim (c : Char) : Token → Bool
  | delim d => c == d
  | _ => false

def opensGroup : Token → Bool
  | function _ => true
  | openParen => true
  | _ => false

def closesGroup : Token → Bool
  | closeParen => true
  | _ => false

def isComposite : Token → Bool
  | namespaceMark _ => true
  | qualifiedName _ _ => true
  | combinator _ => true
  | _ => false

def trim (tokens : List Token) : List Token :=
  ((tokens.dropWhile isWhitespace).reverse.dropWhile isWhitespace).reverse

theorem filter_dropWhile (ts : List Token) :
    (ts.dropWhile isWhitespace).filter (fun t => !t.isWhitespace) =
      ts.filter fun t => !t.isWhitespace := by
  induction ts with
  | nil => rfl
  | cons t ts ih =>
      cases ht : t.isWhitespace with
      | true => rw [List.dropWhile_cons_of_pos ht, ih, List.filter_cons_of_neg (by simp [ht])]
      | false => rw [List.dropWhile_cons_of_neg (by simp [ht])]

theorem filter_trim (ts : List Token) : (trim ts).filter (fun t => !t.isWhitespace) =
    ts.filter fun t => !t.isWhitespace := by
  rw [trim, List.filter_reverse, filter_dropWhile, List.filter_reverse, List.reverse_reverse,
    filter_dropWhile]

end Token

end CssStyling
