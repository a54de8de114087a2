import CssStyling.Proofs.Cascade.Tallying
import CssStyling.Proofs.Store.Contents
import CssStyling.Proofs.Store.Reading

namespace CssStyling

namespace Store

variable {s s' s'' : Store} {e x : NodeId} {id : PropertyId} {es : List NodeId}
  {parent : Option NodeId} {slot : PropertySlot} {changed : Bool}

structure Keeps (es : List NodeId) (s s' : Store) : Prop where
  linked : s'.Linked
  contains {x : NodeId} : x ∉ es → s'.contains x = s.contains x

namespace Keeps

theorem refl (h : s.Linked) : Keeps es s s :=
  ⟨h, fun _ => rfl⟩

theorem trans (h : Keeps es s s') (h' : Keeps es s' s'') : Keeps es s s'' :=
  ⟨h'.linked, fun hx => (h'.contains hx).trans (h.contains hx)⟩

theorem setParent (hl : s.Linked) (h : s.setParent e parent = .ok s') : Keeps es s s' :=
  ⟨(setParent_preserves h).linked hl, fun _ => (setParent_sameContents h).contains _⟩

theorem insert (hl : s.Linked) (he : e ∈ es) (h : s.insert e parent = .ok s') :
    Keeps es s s' := by
  refine ⟨(insert_preserves h).linked hl, fun {x} hx => ?_⟩
  have hne : e ≠ x := fun hex => hx (hex ▸ he)
  rcases insert_cases h with same | ⟨-, rfl⟩
  · exact same.contains x
  · simp [contains_add, hne]

theorem remove (hl : s.Linked) (he : e ∈ es) (h : s.remove e = .ok s') : Keeps es s s' := by
  refine ⟨(remove_preserves h).linked hl, fun {x} hx => ?_⟩
  have hne : e ≠ x := fun hex => hx (hex ▸ he)
  obtain ⟨t, ht, hs⟩ := remove_cases h
  simp [hs.contains, contains_erase, hne, ht.contains]

theorem written (hl : s.Linked) (he : s.contains e = true)
    (h : (s.slotAt e id).Written slot changed) : Keeps es s (s.written e id slot changed) :=
  ⟨(written_preserves he h).linked hl, fun _ => contains_written he⟩

theorem reads {layout : Layout} (hl : s.Linked) (h : s.Reads layout s') : Keeps es s s' :=
  ⟨h.linked hl, fun _ => h.grown.contains _⟩

end Keeps

end Store

namespace StyleM

open Store

variable {a : Activity} {e : NodeId} {name : String} {es : List NodeId} {w : StyleM Bool}

theorem Writes.keeps (h : Writes e name w) (hl : a.store.Linked) :
    Ensures w a (fun _ b => Keeps es a.store b.store) fun _ b => Keeps es a.store b.store := by
  obtain ⟨hc⟩ := h
  refine ensures_write ?_ ?_ fun _ _ => .refl hl
  · intro id p slot changed _ he _ hchange
    exact .written hl he (hc p _ changed slot hchange)
  · intro id p error _ he _ _
    have untouched := PropertySlot.Written.refl (a.store.slotAt e id)
    exact .written hl he untouched

theorem tallies_keeps (es : List NodeId) :
    Tallies fun a _ b => a.store.Linked → Keeps es a.store b.store where
  refl _ hl := .refl hl
  trans h h' hl := (h hl).trans (h' (h hl).linked)

theorem countsWrites_keeps (es : List NodeId) (e : NodeId) :
    CountsWrites (fun a _ b => a.store.Linked → Keeps es a.store b.store) e where
  reset _ name := Ensures.imp (writes_reset e name).keeps
  overwrite _ name source := Ensures.imp (writes_overwrite e name source).keeps

theorem admits_keeps (es : List NodeId) :
    Admits (fun a _ b => a.store.Linked → Keeps es a.store b.store) es :=
  fun _ _ he _ _ hs hl => .insert hl he hs

end StyleM

end CssStyling
