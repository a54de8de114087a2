
namespace CssStyling

inductive ValueKind where
  | unset
  | initial
  | inherit
  | auto
  | none
  | keyword
  | integer
  | number
  | percentage
  | dimension
  | string
  | currentColor
  deriving DecidableEq, Repr

namespace ValueKind

def name : ValueKind → String
  | unset => "unset"
  | initial => "initial"
  | inherit => "inherit"
  | auto => "auto"
  | none => "none"
  | keyword => "keyword"
  | integer => "integer"
  | number => "number"
  | percentage => "percentage"
  | dimension => "dimension"
  | string => "string"
  | currentColor => "currentcolor"

def index : ValueKind → Nat
  | unset => 0
  | initial => 1
  | inherit => 2
  | auto => 3
  | none => 4
  | keyword => 5
  | integer => 6
  | number => 7
  | percentage => 8
  | dimension => 9
  | string => 10
  | currentColor => 11

end ValueKind

abbrev KindSet := BitVec 12

namespace KindSet

def empty : KindSet :=
  0

def ofKind (k : ValueKind) : KindSet :=
  1#12 <<< k.index

def ofList (ks : List ValueKind) : KindSet :=
  ks.foldl (fun s k => s ||| ofKind k) empty

def contains (s : KindSet) (k : ValueKind) : Bool :=
  s.getLsbD k.index

def union (s t : KindSet) : KindSet :=
  s ||| t

def diff (s t : KindSet) : KindSet :=
  s &&& ~~~t

def cssWide : KindSet :=
  ofList [.unset, .initial, .inherit]

end KindSet

end CssStyling
