import CssStyling.Property.Merge
import CssStyling.Proofs.Store.Contents

namespace CssStyling

namespace PropertySlot

variable {s t u : PropertySlot} {b c : Bool}

theorem Written.trans (h : Written s t b) (h' : Written t u c) : Written s u (b || c) where
  dependents := h'.dependents.trans h.dependents
  assigned hbc :=
    let ⟨hb, hc⟩ := Bool.or_eq_false_iff.mp hbc
    (h'.assigned hc).trans (h.assigned hb)
  specified hbc :=
    let ⟨hb, hc⟩ := Bool.or_eq_false_iff.mp hbc
    (h'.specified hc).trans (h.specified hb)
  computed hbc :=
    let ⟨hb, hc⟩ := Bool.or_eq_false_iff.mp hbc
    (h'.computed hc).trans (h.computed hb)
  invalidated hbc := by
    cases c with
    | true => exact h'.invalidated rfl
    | false =>
        obtain ⟨specified, computed⟩ := h.invalidated (by simpa using hbc)
        exact ⟨(h'.specified rfl).trans specified, (h'.computed rfl).trans computed⟩

end PropertySlot

namespace SlotM

open PropertySlot (Written)

variable {p : PropertyDefinition} {s source : PropertySlot} {sources : List PropertySlot}
  {merge : PropertySlot → SlotM Bool}

def settle (s : PropertySlot) :
    Except ValueError (Bool × PropertySlot) → EStateM.Result ValueError PropertySlot Bool
  | .ok (changed, s') => .ok changed s'
  | .error e => .error e s

theorem assign_eq (p : PropertyDefinition) (value : Value) (provenance : Option Provenance)
    (s : PropertySlot) : assign p value provenance s = settle s (s.assign p value provenance) := by
  unfold assign check PropertySlot.assign
  cases p.check value with
  | error e => rfl
  | ok =>
      change (if value == s.assigned then pure false else _ : SlotM Bool) { s with provenance } = _
      dsimp only
      split <;> rfl

theorem cascade_eq (p : PropertyDefinition) (source s : PropertySlot) :
    cascade p source s = settle s (s.cascade p source) := by
  have start : cascade p source s =
      (if !s.assigned.isUnset || source.assigned.isUnset then pure false
        else assign p source.assigned source.provenance : SlotM Bool) s := rfl
  rw [start, PropertySlot.cascade]
  split
  · rfl
  · exact assign_eq p source.assigned source.provenance s

theorem overwrite_eq (p : PropertyDefinition) (source s : PropertySlot) :
    overwrite p source s = settle s (s.overwrite p source) := by
  have start : overwrite p source s =
      (if s.assigned == source.assigned then pure false
        else assign p source.assigned source.provenance : SlotM Bool) s := rfl
  rw [start, PropertySlot.overwrite]
  split
  · rfl
  · exact assign_eq p source.assigned source.provenance s

structure Careful (merge : PropertySlot → SlotM Bool) : Prop where
  refused {source s s' : PropertySlot} {e : ValueError} : merge source s = .error e s' → s' = s
  written {source s s' : PropertySlot} {changed : Bool} :
    merge source s = .ok changed s' → s.Written s' changed

theorem careful_of_settle
    {change : PropertySlot → PropertySlot → Except ValueError (Bool × PropertySlot)}
    (hm : ∀ source s, merge source s = settle s (change source s))
    (hw : ∀ source s changed s', change source s = .ok (changed, s') → s.Written s' changed) :
    Careful merge where
  refused {source s s' e} h := by
    rw [hm] at h
    cases hc : change source s with
    | error e' =>
        rw [hc] at h
        exact (EStateM.Result.error.inj h).2.symm
    | ok found =>
        rw [hc] at h
        cases h
  written {source s s' changed} h := by
    rw [hm] at h
    cases hc : change source s with
    | error e' =>
        rw [hc] at h
        cases h
    | ok found =>
        rw [hc] at h
        obtain ⟨rfl, rfl⟩ := EStateM.Result.ok.inj h
        exact hw source s _ _ hc

theorem cascade_careful (p : PropertyDefinition) : Careful (cascade p) :=
  careful_of_settle (cascade_eq p) fun _ _ _ _ => PropertySlot.cascade_written

theorem overwrite_careful (p : PropertyDefinition) : Careful (overwrite p) :=
  careful_of_settle (overwrite_eq p) fun _ _ _ _ => PropertySlot.overwrite_written

structure Kept (answers : List (Except ValueError Bool)) (s t : PropertySlot) : Prop where
  dependents : t.dependents = s.dependents
  forgotten : .ok true ∈ answers → t.specified = none ∧ t.computed = none
  remembered : .ok true ∉ answers → t.specified = s.specified ∧ t.computed = s.computed

theorem Careful.step_written (h : Careful merge) (source s : PropertySlot) :
    ∃ changed, s.Written (slot (merge source s)) changed ∧
      (changed = true ↔ answer (merge source s) = .ok true) := by
  cases hm : merge source s with
  | ok changed s' => exact ⟨changed, h.written hm, by simp [answer]⟩
  | error e s' =>
      obtain rfl := h.refused hm
      exact ⟨false, .refl _, by simp [answer]⟩

theorem Careful.mergeAll_written (h : Careful merge) (sources : List PropertySlot)
    (s : PropertySlot) : ∃ changed, s.Written (mergeAll merge sources s).2 changed ∧
      (changed = true ↔ .ok true ∈ (mergeAll merge sources s).1) := by
  induction sources generalizing s with
  | nil => exact ⟨false, .refl s, by simp [mergeAll]⟩
  | cons source sources ih =>
      obtain ⟨b, first, hb⟩ := h.step_written source s
      obtain ⟨c, rest, hc⟩ := ih (slot (merge source s))
      refine ⟨b || c, first.trans rest, ?_⟩
      rw [Bool.or_eq_true, hb, hc, mergeAll, List.mem_cons, eq_comm (a := answer _)]

theorem Careful.mergeAll_kept (h : Careful merge) (sources : List PropertySlot)
    (s : PropertySlot) : Kept (mergeAll merge sources s).1 s (mergeAll merge sources s).2 := by
  obtain ⟨changed, written, hc⟩ := h.mergeAll_written sources s
  refine ⟨written.dependents, fun mem => written.invalidated (hc.mpr mem), fun mem => ?_⟩
  have same : changed = false := Bool.eq_false_iff.mpr fun ht => mem (hc.mp ht)
  exact ⟨written.specified same, written.computed same⟩

theorem mergeAll_append (xs ys : List PropertySlot) (s : PropertySlot) :
    (mergeAll merge (xs ++ ys) s).2 = (mergeAll merge ys (mergeAll merge xs s).2).2 := by
  induction xs generalizing s with
  | nil => rfl
  | cons x xs ih => exact ih (slot (merge x s))

theorem mergeAll_of_idle (h : ∀ source ∈ sources, slot (merge source s) = s) :
    (mergeAll merge sources s).2 = s := by
  induction sources with
  | nil => rfl
  | cons source sources ih =>
      obtain ⟨first, rest⟩ := List.forall_mem_cons.mp h
      rw [mergeAll, first]
      exact ih rest

def accepts (p : PropertyDefinition) (source : PropertySlot) : Bool :=
  (p.check source.assigned).isOk

def offers (p : PropertyDefinition) (source : PropertySlot) : Bool :=
  !source.assigned.isUnset && accepts p source

theorem accepts_iff : accepts p source = true ↔ p.check source.assigned = .ok () := by
  unfold accepts
  cases p.check source.assigned <;> simp [Except.isOk, Except.toBool]

theorem assign_of_not_accepts (h : accepts p source = false) (provenance : Option Provenance) :
    ∃ e, s.assign p source.assigned provenance = .error e := by
  cases hc : p.check source.assigned with
  | ok =>
      rw [accepts_iff.mpr hc] at h
      cases h
  | error e => exact ⟨e, by rw [PropertySlot.assign, hc]⟩

theorem cascade_of_set (h : s.assigned.isUnset = false) : slot (cascade p source s) = s := by
  rw [cascade_eq, PropertySlot.cascade, h]
  rfl

theorem cascade_of_not_offers (h : offers p source = false) : slot (cascade p source s) = s := by
  rw [cascade_eq, PropertySlot.cascade]
  split
  · rfl
  · rename_i gap
    have set : source.assigned.isUnset = false := by
      simp only [Bool.or_eq_true, not_or, Bool.not_eq_true] at gap
      exact gap.2
    rw [offers, set] at h
    obtain ⟨e, refused⟩ := assign_of_not_accepts (s := s) h source.provenance
    rw [refused]
    rfl

theorem cascade_of_offers (hs : s.assigned.isUnset = true) (h : offers p source = true) :
    (slot (cascade p source s)).content = source.content ∧
      (slot (cascade p source s)).assigned.isUnset = false := by
  obtain ⟨set, accepted⟩ := Bool.and_eq_true_iff.mp h
  rw [Bool.not_eq_true'] at set
  have gap : s.assigned = .unset := Value.isUnset_iff.mp hs
  have differs : (source.assigned == s.assigned) = false := by rw [gap, Value.beq_unset, set]
  have written : cascade p source s = .ok true
      { s with assigned := source.assigned, provenance := source.provenance }.invalidate := by
    rw [cascade_eq, PropertySlot.cascade, hs, set, PropertySlot.assign, accepts_iff.mp accepted]
    simp [differs, settle]
  rw [written]
  exact ⟨rfl, set⟩

structure Filled (p : PropertyDefinition) (sources : List PropertySlot) (s t : PropertySlot) :
    Prop where
  set : s.assigned ≠ .unset → t = s
  nothing : (∀ x ∈ sources, offers p x = false) → t = s
  first {xs ys : List PropertySlot} {source : PropertySlot} : s.assigned = .unset →
    sources = xs ++ source :: ys → (∀ x ∈ xs, offers p x = false) → offers p source = true →
    t.content = source.content

theorem mergeAll_cascade_filled (p : PropertyDefinition) (sources : List PropertySlot)
    (s : PropertySlot) : Filled p sources s (mergeAll (cascade p) sources s).2 where
  set h := mergeAll_of_idle fun _ _ =>
    cascade_of_set (Bool.eq_false_iff.mpr fun hs => h (Value.isUnset_iff.mp hs))
  nothing h := mergeAll_of_idle fun x hx => cascade_of_not_offers (h x hx)
  first {xs ys source} hs heq hxs h := by
    obtain ⟨content, set⟩ := cascade_of_offers (Value.isUnset_iff.mpr hs) h
    rw [heq, mergeAll_append, mergeAll_of_idle fun x hx => cascade_of_not_offers (hxs x hx)]
    -- what fills the gap stays, whatever the later sources offer
    have stays : (mergeAll (cascade p) ys (slot (cascade p source s))).2 =
        slot (cascade p source s) := mergeAll_of_idle fun _ _ => cascade_of_set set
    rw [mergeAll]
    dsimp only
    rw [stays, content]

theorem overwrite_of_accepts (h : accepts p source = true) :
    (slot (overwrite p source s)).assigned = source.assigned ∨
      ((slot (overwrite p source s)).assigned == source.assigned) = true := by
  obtain ⟨s', hs', content⟩ : ∃ s', s.overwrite p source =
      .ok (!(s.assigned == source.assigned), s') ∧ s'.content =
        if s.assigned == source.assigned then s.content else source.content :=
    PropertySlot.overwrite_content (accepts_iff.mp h) source.provenance
  have merged : overwrite p source s = .ok (!(s.assigned == source.assigned)) s' := by
    rw [overwrite_eq, hs', settle]
  rw [merged]
  cases he : s.assigned == source.assigned with
  | true =>
      have same : s'.assigned = s.assigned := congrArg Prod.fst (content.trans (if_pos he))
      exact .inr (by rw [slot, same, he])
  | false =>
      have taken : s'.content = source.content := content.trans (if_neg (by simp [he]))
      exact .inl (congrArg Prod.fst taken)

theorem overwrite_of_not_accepts (h : accepts p source = false) :
    slot (overwrite p source s) = s := by
  rw [overwrite_eq, PropertySlot.overwrite]
  split
  · rfl
  · obtain ⟨e, refused⟩ := assign_of_not_accepts (s := s) h source.provenance
    rw [refused]
    rfl

structure Replaced (p : PropertyDefinition) (sources : List PropertySlot) (s t : PropertySlot) :
    Prop where
  nothing : (∀ x ∈ sources, accepts p x = false) → t = s
  last {xs ys : List PropertySlot} {source : PropertySlot} : sources = xs ++ source :: ys →
    accepts p source = true → (∀ y ∈ ys, accepts p y = false) →
    t.assigned = source.assigned ∨ (t.assigned == source.assigned) = true

theorem mergeAll_overwrite_replaced (p : PropertyDefinition) (sources : List PropertySlot)
    (s : PropertySlot) : Replaced p sources s (mergeAll (overwrite p) sources s).2 where
  nothing h := mergeAll_of_idle fun x hx => overwrite_of_not_accepts (h x hx)
  last {xs ys source} heq h hys := by
    rw [heq, mergeAll_append, mergeAll]
    dsimp only
    rw [mergeAll_of_idle fun y hy => overwrite_of_not_accepts (hys y hy)]
    exact overwrite_of_accepts h

theorem mergeAll_outcome (p : PropertyDefinition) (s : PropertySlot)
    (sources : List PropertySlot) :
    Filled p sources s (mergeAll (cascade p) sources s).2 ∧
      Replaced p sources s (mergeAll (overwrite p) sources s).2 ∧
      (∀ merge, merge = cascade p ∨ merge = overwrite p →
        (∀ source t t' e, merge source t = .error e t' → t' = t) ∧
          Kept (mergeAll merge sources s).1 s (mergeAll merge sources s).2) ∧
      ∀ source t, cascade p source t = settle t (t.cascade p source) ∧
        overwrite p source t = settle t (t.overwrite p source) := by
  refine ⟨mergeAll_cascade_filled p sources s, mergeAll_overwrite_replaced p sources s, ?_,
    fun source t => ⟨cascade_eq p source t, overwrite_eq p source t⟩⟩
  have kept (merge : PropertySlot → SlotM Bool) (h : Careful merge) :
      (∀ source t t' e, merge source t = .error e t' → t' = t) ∧
        Kept (mergeAll merge sources s).1 s (mergeAll merge sources s).2 :=
    ⟨fun _ _ _ _ => h.refused, h.mergeAll_kept sources s⟩
  rintro merge (rfl | rfl)
  · exact kept _ (cascade_careful p)
  · exact kept _ (overwrite_careful p)

end SlotM

end CssStyling
