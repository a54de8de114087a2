import CssStyling.Proofs.Store.Operations
import Mathlib

namespace CssStyling

open Store

variable {a b : Activity} {e : NodeId} {name : String} {error : StyleError}

structure Activity.Touched (a b : Activity) (e : NodeId) (name : String) (error : StyleError) :
    Prop where
  refused : ∃ refusal, error = .value refusal
  known : a.store.contains e = true
  slot : ∃ id, a.store.registry.id? name = some id ∧ a.store.slot? e id = none ∧
    b = { a with store := a.store.modifySlot e id fun _ => .empty }

namespace Activity.Touched

theorem delivered (h : a.Touched b e name error) : b.delivered = a.delivered := by
  obtain ⟨id, -, -, rfl⟩ := h.slot
  rfl

theorem contains (h : a.Touched b e name error) (x : NodeId) :
    b.store.contains x = a.store.contains x := by
  obtain ⟨id, -, -, rfl⟩ := h.slot
  exact contains_modifySlot h.known

theorem parent? (h : a.Touched b e name error) (x : NodeId) :
    b.store.parent? x = a.store.parent? x := by
  obtain ⟨id, -, -, rfl⟩ := h.slot
  exact parent?_modifySlot

theorem slotAt (h : a.Touched b e name error) (x : NodeId) (j : PropertyId) :
    b.store.slotAt x j = a.store.slotAt x j := by
  obtain ⟨id, -, hnone, rfl⟩ := h.slot
  rw [slotAt_modifySlot]
  split
  · rename_i hx
    rw [← hx.1, ← hx.2, slotAt_of_slot?_eq_none hnone]
  · rfl

end Activity.Touched

namespace StyleM

theorem ensures_write_refused
    (change : PropertyDefinition → PropertySlot → Except ValueError (Bool × PropertySlot)) :
    Ensures (write e name change) a (fun _ _ => True)
      fun error b => b = a ∨ a.Touched b e name error := by
  refine ensures_write (fun _ _ _ _ _ _ _ _ => trivial) ?_ fun _ _ => .inl rfl
  intro id p refusal hid he _ _
  cases hslot : a.store.slot? e id with
  | some slot =>
      left
      rw [slotAt_of_slot? hslot, modifySlot_eq_self hslot rfl]
  | none =>
      right
      rw [slotAt_of_slot?_eq_none hslot]
      exact ⟨⟨refusal, rfl⟩, he, id, hid, hslot, rfl⟩

end StyleM

namespace StyleOperation

open StyleM

variable {o : StyleOperation}

def reads : StyleOperation → Bool
  | read .. => true
  | readById .. => true
  | _ => false

theorem writes_of_reads (ho : o.reads = true) : o.writes = false := by
  cases o <;> first | rfl | cases ho

def target : StyleOperation → Option (NodeId × String)
  | assign e name _ _ => some (e, name)
  | cascade e name _ => some (e, name)
  | overwrite e name _ => some (e, name)
  | reset e name => some (e, name)
  | _ => none

theorem ensures_refused (ho : o.reads = false) (a : Activity) :
    Ensures o.program a (fun _ _ => True) fun error b =>
      b = a ∨ ∃ e name, o.target = some (e, name) ∧ a.Touched b e name error := by
  have moves {f : Store → Except StyleError Store} :
      Ensures (apply f) a (fun _ _ => True) fun error b =>
        b = a ∨ ∃ e name, o.target = some (e, name) ∧ a.Touched b e name error :=
    ensures_apply (fun _ _ => trivial) fun _ _ => .inl rfl
  have writes {e : NodeId} {name : String}
      {change : PropertyDefinition → PropertySlot → Except ValueError (Bool × PropertySlot)}
      (ht : o.target = some (e, name)) :
      Ensures (discard (write e name change)) a (fun _ _ => True) fun error b =>
        b = a ∨ ∃ e name, o.target = some (e, name) ∧ a.Touched b e name error := by
    refine ensures_discard ((ensures_write_refused change).mono (fun _ _ _ => trivial) ?_)
    rintro error b (same | touched)
    · exact .inl same
    · exact .inr ⟨e, name, ht, touched⟩
  cases o with
  | insert | setParent | remove => exact moves
  | assign | cascade | overwrite | reset => exact writes rfl
  | invalidateElement | invalidateAll =>
      simp only [program]
      exact ensures_modifyStore trivial
  | read | readById => cases ho

theorem program_refused (ho : o.reads = false) (h : o.program a = .error error b) :
    (b = a ∨ ∃ e name, o.target = some (e, name) ∧ a.Touched b e name error) ∧
      b.delivered = a.delivered ∧
      (∀ x, b.store.contains x = a.store.contains x ∧ b.store.parent? x = a.store.parent? x) ∧
      ∀ x id, b.store.slotAt x id = a.store.slotAt x id := by
  have left : b = a ∨ ∃ e name, o.target = some (e, name) ∧ a.Touched b e name error :=
    (ensures_refused ho a).of_error h
  refine ⟨left, ?_⟩
  rcases left with rfl | ⟨e, name, -, touched⟩
  · exact ⟨rfl, fun _ => ⟨rfl, rfl⟩, fun _ _ => rfl⟩
  · exact ⟨touched.delivered, fun x => ⟨touched.contains x, touched.parent? x⟩, touched.slotAt⟩

def plain : List StyleOperation :=
  [insert ⟨0, 1⟩ none]

def misfit : StyleOperation :=
  assign ⟨0, 1⟩ "color" (.integer 5) none

theorem program_refused_misfit : misfit.reads = false ∧
    ∃ error b, misfit.program (run ink plain) = .error error b ∧
      (b = run ink plain ∨
        ∃ e name, misfit.target = some (e, name) ∧ (run ink plain).Touched b e name error) ∧
      b.delivered = (run ink plain).delivered ∧
      (∀ x, b.store.contains x = (run ink plain).store.contains x ∧
        b.store.parent? x = (run ink plain).store.parent? x) ∧
      ∀ x id, b.store.slotAt x id = (run ink plain).store.slotAt x id := by
  have writes : misfit.reads = false := by rfl
  have fails : result (misfit.program (run ink plain)) =
      .error (.value (.kindNotAllowed "color" .integer)) := by cbv
  obtain ⟨b, hb⟩ := exists_of_result fails
  exact ⟨writes, _, b, hb, program_refused writes hb⟩

theorem misfit_leaves_slot :
    result (misfit.program (run ink plain)) =
        .error (.value (.kindNotAllowed "color" .integer)) ∧
      (run ink plain).store.property? ⟨0, 1⟩ "color" = none ∧
      (perform (run ink plain) misfit).store.property? ⟨0, 1⟩ "color" = some .empty :=
  ⟨by cbv, by cbv, by cbv⟩

end StyleOperation

end CssStyling
