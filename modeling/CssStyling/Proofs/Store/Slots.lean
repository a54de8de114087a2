import CssStyling.Store.Structure
import Mathlib.Data.List.Nodup

namespace CssStyling

namespace PropertySlot

@[simp] theorem assigned_drain (s : PropertySlot) : s.drain.assigned = s.assigned := rfl
@[simp] theorem provenance_drain (s : PropertySlot) : s.drain.provenance = s.provenance := rfl
@[simp] theorem specified_drain (s : PropertySlot) : s.drain.specified = none := rfl
@[simp] theorem computed_drain (s : PropertySlot) : s.drain.computed = none := rfl
@[simp] theorem dependents_drain (s : PropertySlot) : s.drain.dependents = [] := rfl
@[simp] theorem drain_drain (s : PropertySlot) : s.drain.drain = s.drain := rfl

theorem mem_dependents_addDependent {s : PropertySlot} {e d : Key} :
    d ∈ (s.addDependent e).dependents ↔ d ∈ s.dependents ∨ d = e := by
  unfold addDependent
  split
  · rename_i h
    have he : e ∈ s.dependents := by simpa using h
    constructor
    · exact Or.inl
    · rintro (hd | rfl)
      · exact hd
      · exact he
  · simp

theorem nodup_addDependent {s : PropertySlot} {e : Key} (h : s.dependents.Nodup) :
    (s.addDependent e).dependents.Nodup := by
  unfold addDependent
  split
  · exact h
  · rename_i hn
    refine List.nodup_append.mpr ⟨h, List.nodup_singleton e, ?_⟩
    rintro a ha b hb rfl
    simp_all

@[simp] theorem assigned_addDependent (s : PropertySlot) (e : Key) :
    (s.addDependent e).assigned = s.assigned := by
  unfold addDependent
  split <;> rfl

@[simp] theorem provenance_addDependent (s : PropertySlot) (e : Key) :
    (s.addDependent e).provenance = s.provenance := by
  unfold addDependent
  split <;> rfl

@[simp] theorem specified_addDependent (s : PropertySlot) (e : Key) :
    (s.addDependent e).specified = s.specified := by
  unfold addDependent
  split <;> rfl

@[simp] theorem computed_addDependent (s : PropertySlot) (e : Key) :
    (s.addDependent e).computed = s.computed := by
  unfold addDependent
  split <;> rfl

end PropertySlot

namespace Store

variable {s : Store} {e x : NodeId} {id j : PropertyId}

theorem contains_iff : s.contains e = true ↔ e ∈ s.elements := by
  rw [contains, element?, Std.ExtTreeMap.mem_iff_isSome_getElem?]

theorem parent?_of_not_contains (h : s.contains e = false) : s.parent? e = none := by
  simp_all [contains, parent?]

theorem contains_of_parent? {p : NodeId} (h : s.parent? e = some p) : s.contains e = true := by
  by_contra hn
  simp [parent?_of_not_contains (by simpa using hn)] at h

theorem slotAt_of_not_contains (h : s.contains e = false) : s.slotAt e id = .empty := by
  simp_all [contains, slotAt, slot?]

theorem slotAt_of_slot?_eq_none (h : s.slot? e id = none) : s.slotAt e id = .empty := by
  simp [slotAt, h]

theorem slotAt_of_slot? {slot : PropertySlot} (h : s.slot? e id = some slot) :
    s.slotAt e id = slot := by
  simp [slotAt, h]

@[simp] theorem slot?_bind_specified :
    (s.slot? e id).bind (·.specified) = (s.slotAt e id).specified := by
  rw [slotAt]
  cases s.slot? e id <;> rfl

@[simp] theorem slot?_bind_computed :
    (s.slot? e id).bind (·.computed) = (s.slotAt e id).computed := by
  rw [slotAt]
  cases s.slot? e id <;> rfl

theorem contains_of_slot? {slot : PropertySlot} (h : s.slot? e id = some slot) :
    s.contains e = true := by
  obtain ⟨element, he, _⟩ := Option.bind_eq_some_iff.mp h
  simp [contains, he]

theorem contains_of_slotAt_ne (h : s.slotAt e id ≠ .empty) : s.contains e = true := by
  by_contra hn
  exact h (slotAt_of_not_contains (by simpa using hn))

theorem element?_ofRegistry {r : PropertyRegistry} : (ofRegistry r).element? e = none := by
  simp [element?, ofRegistry]

theorem slotAt_ofRegistry {r : PropertyRegistry} : (ofRegistry r).slotAt e id = .empty := by
  simp [slotAt, slot?, element?_ofRegistry]

theorem parent?_ofRegistry {r : PropertyRegistry} : (ofRegistry r).parent? e = none := by
  simp [parent?, element?_ofRegistry]

theorem element?_modifyElement {f : StyledElement → StyledElement} :
    (s.modifyElement e f).element? x =
      if e = x then (s.element? x).map f else s.element? x := by
  simp only [element?, modifyElement, Std.ExtTreeMap.getElem?_modify, Std.compare_eq_iff_eq]
  split
  · subst x
    rfl
  · rfl

@[simp] theorem contains_modifyElement {f : StyledElement → StyledElement} :
    (s.modifyElement e f).contains x = s.contains x := by
  simp only [contains, element?_modifyElement]
  split <;> simp

theorem element?_modifySlot {f : PropertySlot → PropertySlot} :
    (s.modifySlot e id f).element? x =
      if e = x then some (((s.element? e).getD .empty).modifySlot id f) else s.element? x := by
  simp only [element?, modifySlot, Std.ExtTreeMap.getElem?_alter, Std.compare_eq_iff_eq]

theorem contains_modifySlot {f : PropertySlot → PropertySlot} (h : s.contains e = true) :
    (s.modifySlot e id f).contains x = s.contains x := by
  rw [contains, element?_modifySlot]
  split
  · rename_i hx
    exact (hx ▸ h).symm
  · rfl

@[simp] theorem parent?_modifySlot {f : PropertySlot → PropertySlot} :
    (s.modifySlot e id f).parent? x = s.parent? x := by
  rw [parent?, element?_modifySlot, parent?]
  split
  · rename_i hx
    subst x
    cases s.element? e <;> rfl
  · rfl

theorem slot?_modifySlot {f : PropertySlot → PropertySlot} :
    (s.modifySlot e id f).slot? x j =
      if e = x ∧ id = j then some (f (s.slotAt e id)) else s.slot? x j := by
  rw [slot?, element?_modifySlot, slot?, slotAt, slot?]
  by_cases he : e = x
  · subst x
    cases s.element? e <;>
      simp [StyledElement.slot?, StyledElement.modifySlot, StyledElement.empty,
        Std.ExtTreeMap.getElem?_alter]
  · simp [he]

theorem slotAt_modifySlot {f : PropertySlot → PropertySlot} :
    (s.modifySlot e id f).slotAt x j =
      if e = x ∧ id = j then f (s.slotAt e id) else s.slotAt x j := by
  rw [slotAt, slot?_modifySlot, slotAt.eq_def s x j]
  split <;> rfl

@[simp] theorem slotAt_modifySlot_self {f : PropertySlot → PropertySlot} :
    (s.modifySlot e id f).slotAt e id = f (s.slotAt e id) := by
  simp [slotAt_modifySlot]

theorem slotAt_modifySlot_of_ne {f : PropertySlot → PropertySlot} (h : ¬(e = x ∧ id = j)) :
    (s.modifySlot e id f).slotAt x j = s.slotAt x j := by
  rw [slotAt_modifySlot, if_neg h]

theorem modifySlot_eq_self {f : PropertySlot → PropertySlot} {slot : PropertySlot}
    (h : s.slot? e id = some slot) (hf : f slot = slot) : s.modifySlot e id f = s := by
  obtain ⟨element, he, hslot⟩ := Option.bind_eq_some_iff.mp h
  have slots : (element.modifySlot id f).slots = element.slots := by
    refine Std.ExtTreeMap.ext_getElem? fun j => ?_
    simp only [StyledElement.modifySlot, Std.ExtTreeMap.getElem?_alter, Std.compare_eq_iff_eq]
    split
    · rename_i hj
      have hs : element.slots[id]? = some slot := hslot
      rw [← hj, hs, Option.getD_some, hf]
    · rfl
  have elements : (s.modifySlot e id f).elements = s.elements := by
    refine Std.ExtTreeMap.ext_getElem? fun x => ?_
    have hx : (s.modifySlot e id f).element? x =
        if e = x then some (((s.element? e).getD .empty).modifySlot id f) else s.element? x :=
      element?_modifySlot
    simp only [element?] at hx he
    rw [hx]
    split
    · rename_i hex
      rw [← hex, he, Option.getD_some]
      exact congrArg (fun slots => some (⟨element.parent, slots⟩ : StyledElement)) slots
    · rfl
  exact congrArg (fun elements => ({ s with elements } : Store)) elements

theorem of_slotAt_modifySlot {P : PropertySlot → Prop} {f : PropertySlot → PropertySlot}
    (h : P ((s.modifySlot e id f).slotAt x j)) :
    (e = x ∧ id = j ∧ P (f (s.slotAt e id))) ∨ P (s.slotAt x j) := by
  rw [slotAt_modifySlot] at h
  split at h
  · rename_i hx
    exact .inl ⟨hx.1, hx.2, h⟩
  · exact .inr h

@[simp] theorem specified_slotAt_addDependent {p : NodeId} :
    ((s.addDependent p id e).slotAt x j).specified = (s.slotAt x j).specified := by
  rw [addDependent, slotAt_modifySlot]
  split
  · rename_i hx
    simp [hx]
  · rfl

@[simp] theorem computed_slotAt_addDependent {p : NodeId} :
    ((s.addDependent p id e).slotAt x j).computed = (s.slotAt x j).computed := by
  rw [addDependent, slotAt_modifySlot]
  split
  · rename_i hx
    simp [hx]
  · rfl

theorem mem_dependents_slotAt_addDependent {p : NodeId} :
    e ∈ ((s.addDependent p id e).slotAt p id).dependents := by
  rw [addDependent, slotAt_modifySlot_self]
  exact PropertySlot.mem_dependents_addDependent.mpr (.inr rfl)

theorem slotAt_mapSlots {f : PropertySlot → PropertySlot} (hf : f .empty = .empty) :
    (s.modifyElement e (·.mapSlots f)).slotAt x j =
      if e = x then f (s.slotAt x j) else s.slotAt x j := by
  simp only [slotAt, slot?, element?_modifyElement]
  split
  · cases s.element? x with
    | none => exact hf.symm
    | some element =>
        simp only [Option.map_some, Option.bind_some, StyledElement.slot?, StyledElement.mapSlots,
          Std.ExtTreeMap.getElem?_map]
        cases element.slots[j]? with
        | none => exact hf.symm
        | some slot => rfl
  · rfl

@[simp] theorem parent?_mapSlots {f : PropertySlot → PropertySlot} :
    (s.modifyElement e (·.mapSlots f)).parent? x = s.parent? x := by
  simp only [parent?, element?_modifyElement]
  split
  · cases s.element? x <;> rfl
  · rfl

@[simp] theorem slotAt_dropDependent {p : NodeId} :
    (s.dropDependent p e).slotAt x j =
      if p = x then (s.slotAt x j).dropDependent e else s.slotAt x j :=
  slotAt_mapSlots rfl

@[simp] theorem parent?_dropDependent {p : NodeId} :
    (s.dropDependent p e).parent? x = s.parent? x :=
  parent?_mapSlots

@[simp] theorem contains_dropDependent {p : NodeId} :
    (s.dropDependent p e).contains x = s.contains x :=
  contains_modifyElement

@[simp] theorem slotAt_invalidateAll : s.invalidateAll.slotAt x j = (s.slotAt x j).drain := by
  simp only [slotAt, slot?, element?, invalidateAll, Std.ExtTreeMap.getElem?_map]
  cases s.elements[x]? with
  | none => rfl
  | some element =>
      simp only [Option.map_some, Option.bind_some, StyledElement.slot?, StyledElement.mapSlots,
        Std.ExtTreeMap.getElem?_map]
      cases element.slots[j]? <;> rfl

@[simp] theorem parent?_invalidateAll : s.invalidateAll.parent? x = s.parent? x := by
  simp only [parent?, element?, invalidateAll, Std.ExtTreeMap.getElem?_map]
  cases s.elements[x]? <;> rfl

@[simp] theorem contains_invalidateAll : s.invalidateAll.contains x = s.contains x := by
  simp [contains, element?, invalidateAll]

@[simp] theorem slotAt_writeParent {p : Option NodeId} :
    (s.writeParent e p).slotAt x j = s.slotAt x j := by
  simp only [slotAt, slot?, writeParent, element?_modifyElement]
  split
  · cases s.element? x <;> rfl
  · rfl

@[simp] theorem contains_writeParent {p : Option NodeId} :
    (s.writeParent e p).contains x = s.contains x :=
  contains_modifyElement

theorem parent?_writeParent {p : Option NodeId} (h : s.contains e = true) :
    (s.writeParent e p).parent? x = if e = x then p else s.parent? x := by
  simp only [parent?, writeParent, element?_modifyElement]
  split
  · subst x
    obtain ⟨element, he⟩ := Option.isSome_iff_exists.mp h
    simp [he]
  · rfl

theorem element?_add {p : Option NodeId} :
    (s.add e p).element? x = if e = x then some ⟨p, ∅⟩ else s.element? x := by
  simp only [element?, add, Std.ExtTreeMap.getElem?_insert, Std.compare_eq_iff_eq]

theorem contains_add {p : Option NodeId} :
    (s.add e p).contains x = (decide (e = x) || s.contains x) := by
  rw [contains, element?_add]
  split <;> simp_all [contains]

theorem parent?_add {p : Option NodeId} :
    (s.add e p).parent? x = if e = x then p else s.parent? x := by
  simp only [parent?, element?_add]
  split <;> rfl

theorem slotAt_add {p : Option NodeId} (h : s.contains e = false) :
    (s.add e p).slotAt x j = s.slotAt x j := by
  by_cases hx : e = x
  · subst x
    rw [slotAt_of_not_contains h]
    simp [slotAt, slot?, element?_add, StyledElement.slot?]
  · simp [slotAt, slot?, element?_add, hx]

theorem element?_erase : (s.erase e).element? x = if e = x then none else s.element? x := by
  simp only [element?, erase, Std.ExtTreeMap.getElem?_erase, Std.compare_eq_iff_eq]

theorem contains_erase : (s.erase e).contains x = (!decide (e = x) && s.contains x) := by
  rw [contains, element?_erase]
  split <;> simp_all [contains]

theorem parent?_erase : (s.erase e).parent? x = if e = x then none else s.parent? x := by
  simp only [parent?, element?_erase]
  split <;> rfl

theorem slotAt_erase : (s.erase e).slotAt x j = if e = x then .empty else s.slotAt x j := by
  simp only [slotAt, slot?, element?_erase]
  split <;> rfl

theorem mem_childrenOf : x ∈ s.childrenOf e ↔ s.parent? x = some e := by
  simp only [childrenOf, List.mem_map, List.mem_filter, Prod.exists,
    Std.ExtTreeMap.mem_toList_iff_getElem?_eq_some, beq_iff_eq, parent?, element?]
  constructor
  · rintro ⟨y, element, ⟨hy, hp⟩, rfl⟩
    simp [hy, hp]
  · intro h
    obtain ⟨element, hx, hp⟩ := Option.bind_eq_some_iff.mp h
    exact ⟨x, element, ⟨hx, hp⟩, rfl⟩

end Store

end CssStyling
