import CssStyling.Proofs.Cascade.Actions

namespace CssStyling

def PropertySlot.derived (slot : PropertySlot) : Option Value × Option Value × List Key :=
  (slot.specified, slot.computed, slot.dependents)

namespace Store

variable {s s' : Store} {e x : NodeId} {id : PropertyId} {slot : PropertySlot}

def SameDerived (s s' : Store) : Prop :=
  ∀ x j, (s'.slotAt x j).derived = (s.slotAt x j).derived

structure Invalidated (s s' : Store) (e : NodeId) (id : PropertyId) : Prop where
  reached {x : NodeId} : s.Below id e x → (s'.slotAt x id).derived = (none, none, [])
  spared {x : NodeId} {j : PropertyId} : ¬(j = id ∧ s.Below id e x) →
    (s'.slotAt x j).derived = (s.slotAt x j).derived
  inside {x : NodeId} : s.Below id e x →
    Relation.ReflTransGen (fun c p => s.parent? c = some p) x e

theorem Listed.above_of_below (h : s.Listed) (hx : s.Below id e x) :
    Relation.ReflTransGen (fun c p => s.parent? c = some p) x e := by
  induction hx with
  | refl => exact .refl
  | tail _ hd ih => exact .head (h.parent hd) ih

theorem derived_modifySlot (h : slot.derived = (s.slotAt e id).derived) :
    s.SameDerived (s.modifySlot e id fun _ => slot) := by
  intro x j
  rw [slotAt_modifySlot]
  split
  · rename_i hx
    rw [h, hx.1, hx.2]
  · rfl

theorem written_sameDerived (h : (s.slotAt e id).Written slot false) :
    s.SameDerived (s.written e id slot false) := by
  refine derived_modifySlot ?_
  rw [PropertySlot.derived, h.specified rfl, h.computed rfl, h.dependents]
  rfl

theorem written_invalidated (hs : s.Linked) (he : s.contains e = true)
    (h : (s.slotAt e id).Written slot true) :
    s.Invalidated (s.written e id slot true) e id := by
  have drained : Drained _ (s.written e id slot true) _ :=
    invalidateProperty_drained (hs.overwritten he h.dependents).toListed e id
  have below {x : NodeId} := below_modifySlot (x := e) (d := x) (j := id) h.dependents
  refine ⟨fun hx => ?_, fun {x j} hx => ?_, hs.toListed.above_of_below⟩
  · rw [drained.drained ⟨rfl, below.mpr hx⟩]
    rfl
  · rw [drained.kept fun hc => hx ⟨hc.1, below.mp (hc.1 ▸ hc.2)⟩, slotAt_modifySlot_of_ne]
    rintro ⟨rfl, rfl⟩
    exact hx ⟨rfl, .refl⟩

end Store

namespace StyleM

open Store

variable {a : Activity} {e : NodeId} {name : String} {w : StyleM Bool}

theorem Writes.invalidates (h : Writes e name w) (hl : a.store.Linked) :
    Ensures w a
      (fun changed b => if changed then
          ∃ id, a.store.registry.id? name = some id ∧ a.store.Invalidated b.store e id
        else a.store.SameDerived b.store)
      fun _ b => a.store.SameDerived b.store := by
  obtain ⟨hc⟩ := h
  refine ensures_write ?_ ?_ fun _ _ _ _ => rfl
  · intro id p slot changed hid he _ hchange
    have written := hc p _ changed slot hchange
    cases changed with
    | false => exact written_sameDerived written
    | true => exact ⟨id, hid, written_invalidated hl he written⟩
  · intro id p error _ _ _ _
    exact derived_modifySlot rfl

end StyleM

namespace StyleAction

open StyleM Store

theorem run_invalidates (r : PropertyRegistry) (as : List StyleAction) :
    let a := run r as
    (∀ e name value provenance source,
      ∀ write ∈ [assign e name value provenance, cascade e name source, overwrite e name source,
        reset e name], Ensures write a
          (fun changed b => if changed then
              ∃ id, a.store.registry.id? name = some id ∧ a.store.Invalidated b.store e id
            else a.store.SameDerived b.store)
          fun _ b => a.store.SameDerived b.store) ∧
    ∀ e id, Acc (fun c' c => Turn id c c') (a.store, [e]) ∧
      Relation.ReflTransGen (Turn id) (a.store, [e]) (a.store.invalidateProperty e id, []) ∧
      ∀ s work, Relation.ReflTransGen (Turn id) (a.store, [e]) (s, work) →
        (∀ c, ¬Turn id (s, work) c) →
        work = [] ∧ s.slotAt = (a.store.invalidateProperty e id).slotAt := by
  intro a
  have linked : a.store.Linked := linked_run r as
  have turns (e : NodeId) (id : PropertyId) := invalidateProperty_turns linked.toListed e id
  refine ⟨?writes, fun e id => ⟨turns_end id _, turns e id, ?same⟩⟩
  case writes =>
    intro e name value provenance source write hwrite
    simp only [List.mem_cons, List.not_mem_nil, or_false] at hwrite
    rcases hwrite with rfl | rfl | rfl | rfl
    · exact (writes_assign e name value provenance).invalidates linked
    · exact (writes_cascade e name source).invalidates linked
    · exact (writes_overwrite e name source).invalidates linked
    · exact (writes_reset e name).invalidates linked
  case same =>
    intro s work hs hlast
    obtain rfl : work = [] := by
      by_contra hwork
      obtain ⟨c, hc⟩ := exists_turn id s hwork
      exact hlast c hc
    exact ⟨rfl, (turns_drained hs).slotAt_eq (turns_drained (turns e id))⟩

end StyleAction

end CssStyling
