
namespace CssStyling

structure Key where
  slot : Nat
  generation : UInt32
  deriving DecidableEq, Repr

namespace Key

def cmp : Key → Key → Ordering :=
  compareLex (compareOn (·.slot)) (compareOn (·.generation))

instance : Ord Key where
  compare := cmp

instance : Std.TransOrd Key :=
  inferInstanceAs (Std.TransCmp (compareLex (compareOn Key.slot) (compareOn Key.generation)))

instance : Std.LawfulEqOrd Key where
  eq_of_compare {k l} h := by
    have h' : cmp k l = .eq := h
    simp only [cmp, compareLex, compareOn, Ordering.then_eq_eq] at h'
    cases k
    cases l
    simp_all

def shortText (k : Key) : String :=
  toString k.slot ++ "v" ++ toString k.generation

def text (k : Key) : String :=
  "Idx(" ++ k.shortText ++ ")"

end Key

end CssStyling
