import CssStyling.Proofs.Cascade.Actions
import CssStyling.Proofs.Document.Inserting
import CssStyling.Proofs.Store.Planting

namespace CssStyling

namespace Store

variable {s s' : Store} {e x : NodeId} {parent : Option NodeId} {d : Document} {top : NodeId}
  {l : List NodeId}

def standing (s : Store) (x : NodeId) : Bool × Option NodeId :=
  (s.contains x, s.parent? x)

theorem Added.standing (h : Added s s' e parent) (hx : e ≠ x) : s'.standing x = s.standing x := by
  rw [Store.standing, h.contains, h.parent, if_neg hx, decide_eq_false hx, Bool.false_or]
  rfl

end Store

namespace StyleAction

open StyleM

end StyleAction

end CssStyling
