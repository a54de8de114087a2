import CssStyling.Proofs.Store.Freshness
import CssStyling.Proofs.Store.Programs
import CssStyling.Store.Write

namespace CssStyling

namespace PropertySlot

variable {slot slot' source : PropertySlot} {p : PropertyDefinition} {value : Value}
  {provenance : Option Provenance} {changed : Bool}

structure Written (slot slot' : PropertySlot) (changed : Bool) : Prop where
  dependents : slot'.dependents = slot.dependents
  assigned : changed = false → slot'.assigned = slot.assigned
  specified : changed = false → slot'.specified = slot.specified
  computed : changed = false → slot'.computed = slot.computed
  invalidated : changed = true → slot'.specified = none ∧ slot'.computed = none

theorem Written.refl (slot : PropertySlot) : Written slot slot false :=
  ⟨rfl, fun _ => rfl, fun _ => rfl, fun _ => rfl, by simp⟩

theorem assign_written (h : slot.assign p value provenance = .ok (changed, slot')) :
    Written slot slot' changed := by
  unfold assign at h
  cases hcheck : p.check value with
  | error error => simp [hcheck] at h
  | ok =>
      simp only [hcheck] at h
      split at h
      · obtain ⟨rfl, rfl⟩ := Prod.mk.inj (Except.ok.inj h)
        exact ⟨rfl, fun _ => rfl, fun _ => rfl, fun _ => rfl, by simp⟩
      · obtain ⟨rfl, rfl⟩ := Prod.mk.inj (Except.ok.inj h)
        exact ⟨rfl, by simp, by simp, by simp, fun _ => ⟨rfl, rfl⟩⟩

theorem cascade_written (h : slot.cascade p source = .ok (changed, slot')) :
    Written slot slot' changed := by
  unfold cascade at h
  split at h
  · obtain ⟨rfl, rfl⟩ := Prod.mk.inj (Except.ok.inj h)
    exact .refl slot
  · exact assign_written h

theorem overwrite_written (h : slot.overwrite p source = .ok (changed, slot')) :
    Written slot slot' changed := by
  unfold overwrite at h
  split at h
  · obtain ⟨rfl, rfl⟩ := Prod.mk.inj (Except.ok.inj h)
    exact .refl slot
  · exact assign_written h

theorem reset_written (h : slot.reset = (changed, slot')) : Written slot slot' changed := by
  unfold reset at h
  split at h
  · obtain ⟨rfl, rfl⟩ := Prod.mk.inj h
    exact ⟨rfl, fun _ => rfl, fun _ => rfl, fun _ => rfl, by simp⟩
  · obtain ⟨rfl, rfl⟩ := Prod.mk.inj h
    exact ⟨rfl, by simp, by simp, by simp, fun _ => ⟨rfl, rfl⟩⟩

end PropertySlot

namespace Store

variable {s : Store} {e d x : NodeId} {id j : PropertyId} {slot : PropertySlot} {changed : Bool}

def written (s : Store) (e : NodeId) (id : PropertyId) (slot : PropertySlot) (changed : Bool) :
    Store :=
  let s' := s.modifySlot e id fun _ => slot
  if changed then s'.invalidateProperty e id else s'

theorem feeds_modifySlot (hd : slot.dependents = (s.slotAt e id).dependents) :
    (s.modifySlot e id fun _ => slot).Feeds j x d ↔ s.Feeds j x d := by
  unfold Feeds
  by_cases hx : e = x ∧ id = j
  · obtain ⟨rfl, rfl⟩ := hx
    rw [slotAt_modifySlot_self, hd]
  · rw [slotAt_modifySlot_of_ne hx]

theorem below_modifySlot (hd : slot.dependents = (s.slotAt e id).dependents) :
    (s.modifySlot e id fun _ => slot).Below j x d ↔ s.Below j x d :=
  ⟨.mono fun _ _ => (feeds_modifySlot hd).mp, .mono fun _ _ => (feeds_modifySlot hd).mpr⟩

theorem Linked.overwritten (hs : s.Linked) (he : s.contains e = true)
    (hd : slot.dependents = (s.slotAt e id).dependents) :
    (s.modifySlot e id fun _ => slot).Linked :=
  hs.modifySlot he (hd ▸ hs.nodup e id) (hd ▸ fun _ => hs.parent)

theorem written_preserves (he : s.contains e = true)
    (h : (s.slotAt e id).Written slot changed) : Preserves s (s.written e id slot changed) := by
  have linked (hs : s.Linked) : (s.modifySlot e id fun _ => slot).Linked :=
    hs.overwritten he h.dependents
  cases changed with
  | false =>
      refine ⟨fun _ => rfl, linked, fun _ _ hf => hf.cleared (C := fun _ _ => False) ?_⟩
      have same {x : NodeId} {j : PropertyId} {α : Type} {f : PropertySlot → α}
          (hf : f slot = f (s.slotAt e id)) :
          f ((s.modifySlot e id fun _ => slot).slotAt x j) = f (s.slotAt x j) := by
        rw [slotAt_modifySlot]
        split
        · rename_i hx
          rw [hf, hx.1, hx.2]
        · rfl
      exact ⟨rfl, False.elim, fun _ => same (h.assigned rfl), fun _ => same (h.specified rfl),
        fun _ => same (h.computed rfl), fun _ => parent?_modifySlot,
        fun _ _ => (feeds_modifySlot h.dependents).mpr, False.elim⟩
  | true =>
      have drained (hs : s.Linked) := invalidateProperty_drained (linked hs).toListed e id
      refine ⟨fun hs => (drained hs).registry, fun hs => (drained hs).linked (linked hs),
        fun _ hs hf => ?_⟩
      have same {x : NodeId} {j : PropertyId} (hx : ¬(j = id ∧ s.Below id e x)) :
          (s.written e id slot true).slotAt x j = s.slotAt x j := by
        have hx' : ¬(e = x ∧ id = j) := fun ⟨hex, hj⟩ => hx ⟨hj.symm, hex ▸ .refl⟩
        have hkept := (drained hs).kept fun hc =>
          hx ⟨hc.1, (below_modifySlot h.dependents).mp hc.2⟩
        exact hkept.trans (slotAt_modifySlot_of_ne hx')
      refine hf.cleared (C := fun x j => j = id ∧ s.Below id e x) ⟨(drained hs).registry, ?_,
        fun hx => congrArg PropertySlot.assigned (same hx), fun hx => by rw [same hx],
        fun hx => by rw [same hx], fun _ => ((drained hs).parent _).trans parent?_modifySlot,
        fun hx _ hd => by rwa [Feeds, same hx], ?_⟩
      · rintro x j ⟨rfl, hx⟩
        have hd := (drained hs).drained ⟨rfl, (below_modifySlot h.dependents).mpr hx⟩
        simp only [written, ↓reduceIte]
        rw [hd]
        exact ⟨rfl, rfl⟩
      · rintro x d j ⟨rfl, hx⟩ hd
        exact ⟨rfl, hx.tail hd⟩

theorem untouched_preserves (he : s.contains e = true) :
    Preserves s (s.modifySlot e id fun _ => s.slotAt e id) :=
  written_preserves he (.refl (s.slotAt e id))

end Store

def Activity.written (a : Activity) (e : NodeId) (id : PropertyId) (p : PropertyDefinition)
    (slot : PropertySlot) (changed : Bool) : Activity :=
  let s := a.store.written e id slot changed
  let change : StyleChange := ⟨e, p.name, a.store.assigned e id, slot.assigned, p.dirt⟩
  { a with
    store := s
    delivered := if changed then a.delivered ++ (s.listeners.map (⟨·, change⟩)).toArray
      else a.delivered }

namespace StyleM

open Store

variable {a : Activity} {e : NodeId} {name : String} {w : StyleM Bool}
  {change : PropertyDefinition → PropertySlot → Except ValueError (Bool × PropertySlot)}
  {Q : Bool → Activity → Prop} {E : StyleError → Activity → Prop}

theorem ensures_write
    (done : ∀ id p slot changed, a.store.registry.id? name = some id →
      a.store.contains e = true → a.store.registry.get? id = some p →
      change p (a.store.slotAt e id) = .ok (changed, slot) →
      Q changed (a.written e id p slot changed))
    (refused : ∀ id p error, a.store.registry.id? name = some id →
      a.store.contains e = true → a.store.registry.get? id = some p →
      change p (a.store.slotAt e id) = .error error →
      E (.value error)
        { a with store := a.store.modifySlot e id fun _ => a.store.slotAt e id })
    (failed : a.store.registry.id? name = none ∨ a.store.contains e = false ∨
      (∃ id, a.store.registry.id? name = some id ∧ a.store.registry.get? id = none) →
      ∀ error, E error a) :
    Ensures (write e name change) a Q E := by
  unfold write
  refine ensures_bind (ensures_propertyId (fun id hid => ?_) fun hn => failed (.inl hn))
  refine ensures_bind (ensures_store ?_)
  split
  · rename_i he
    exact ensures_bind (ensures_throw (failed (.inr (.inl (by simpa using he))) _))
  · rename_i he
    have hc : a.store.contains e = true := by simpa using he
    refine ensures_bind (ensures_definition (fun p hp => ?_)
      fun hn => failed (.inr (.inr ⟨id, hid, hn⟩)))
    cases hchange : change p (a.store.slotAt e id) with
    | error error =>
        simp only [hchange]
        exact ensures_bind (ensures_modifyStore
          (ensures_throw (refused id p error hid hc hp hchange)))
    | ok outcome =>
        obtain ⟨changed, slot⟩ := outcome
        simp only [hchange]
        refine ensures_bind (ensures_modifyStore ?_)
        have hdone := done id p slot changed hid hc hp hchange
        cases changed with
        | false => exact ensures_pure hdone
        | true =>
            exact ensures_bind (ensures_modifyStore (ensures_bind (ensures_notify
              (ensures_pure hdone))))

inductive Writes (e : NodeId) (name : String) : StyleM Bool → Prop where
  | intro {change : PropertyDefinition → PropertySlot → Except ValueError (Bool × PropertySlot)} :
      (∀ p slot changed slot', change p slot = .ok (changed, slot') →
        slot.Written slot' changed) → Writes e name (write e name change)

theorem writes_assign (e : NodeId) (name : String) (value : Value)
    (provenance : Option Provenance) : Writes e name (assign e name value provenance) :=
  .intro fun _ _ _ _ => PropertySlot.assign_written

theorem writes_cascade (e : NodeId) (name : String) (source : PropertySlot) :
    Writes e name (cascade e name source) :=
  .intro fun _ _ _ _ => PropertySlot.cascade_written

theorem writes_overwrite (e : NodeId) (name : String) (source : PropertySlot) :
    Writes e name (overwrite e name source) :=
  .intro fun _ _ _ _ => PropertySlot.overwrite_written

theorem writes_reset (e : NodeId) (name : String) : Writes e name (reset e name) :=
  .intro fun _ _ _ _ h => PropertySlot.reset_written (Except.ok.inj h)

theorem Writes.preserves (h : Writes e name w) :
    Ensures w a (fun _ b => Preserves a.store b.store)
      (fun _ b => Preserves a.store b.store) := by
  obtain ⟨hc⟩ := h
  refine ensures_write ?_ ?_ fun _ _ => .refl a.store
  · intro id p slot changed _ he _ hchange
    exact written_preserves he (hc p _ changed slot hchange)
  · intro id p error _ he _ _
    exact untouched_preserves he

end StyleM

end CssStyling
