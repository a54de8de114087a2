import CssStyling.Proofs.SlotMap.Chain

namespace CssStyling.SlotMap

variable {α : Type} {m : SlotMap α} {k l : Key} {a : α} {f : α → α}

def Valid (m : SlotMap α) : Prop :=
  ∃ free, m.FreeList free

theorem get?_of_vacant {i : Nat} {slot : Slot α} (hi : m.slots[i]? = some slot)
    (hv : slot.value = none) (hk : k.slot = i) : m.get? k = none := by
  simp [get?, hk, hi, hv]

theorem key_eq_of_slot {b : α} (hk : m.get? k = some a) (hl : m.get? l = some b)
    (h : k.slot = l.slot) : k = l := by
  obtain ⟨slot, hs, hg, _⟩ := get?_eq_some.mp hk
  obtain ⟨slot', hs', hg', _⟩ := get?_eq_some.mp hl
  obtain rfl := Option.some.inj (hs.symm.trans (h ▸ hs'))
  cases k
  cases l
  simp_all

theorem slot_lt_of_get? (h : m.get? k = some a) : k.slot < m.slots.size := by
  obtain ⟨slot, hs, _⟩ := get?_eq_some.mp h
  exact (Array.getElem?_eq_some_iff.mp hs).1

@[simp] theorem get?_empty : (empty : SlotMap α).get? k = none := by
  simp [get?, empty]

theorem get?_modify : (m.modify k f).get? l =
    if k = l then (m.get? l).map f else m.get? l := by
  simp only [get?, modify, Array.getElem?_modify]
  by_cases hs : k.slot = l.slot
  · simp only [hs, ↓reduceIte]
    cases m.slots[l.slot]? with
    | none => simp
    | some slot =>
        have hkey : k = l ↔ k.generation = l.generation := by
          cases k
          cases l
          simp_all
        simp only [Option.map_some, hkey]
        by_cases hg : slot.generation = k.generation
        · simp only [hg, ↓reduceIte]
          split <;> rfl
        · simp only [hg, ↓reduceIte]
          split
          · split
            · simp_all
            · rfl
          · split <;> rfl
  · have hkey : k ≠ l := fun h => hs (h ▸ rfl)
    simp [hs, hkey]

theorem get?_erase : (m.erase k).get? l = if k = l then none else m.get? l := by
  unfold erase
  split
  · rename_i hc
    obtain ⟨a, ha⟩ := Option.isSome_iff_exists.mp hc
    by_cases hs : k.slot = l.slot
    · have hnone : SlotMap.get? ⟨m.slots.modify k.slot fun slot =>
          ⟨slot.generation + 1, none, m.firstFree⟩, some k.slot, m.size - 1⟩ l = none := by
        simp only [get?, Array.getElem?_modify, hs, ↓reduceIte]
        cases m.slots[l.slot]? <;> simp
      rw [hnone]
      split
      · rfl
      · rename_i hkey
        -- only one key finds the value of a slot
        cases hl : m.get? l with
        | none => rfl
        | some b => exact absurd (key_eq_of_slot ha hl hs) hkey
    · have hkey : k ≠ l := fun h => hs (h ▸ rfl)
      simp [get?, Array.getElem?_modify, hs, hkey]
  · rename_i hc
    split
    · rename_i hkey
      simpa [contains, hkey] using hc
    · rfl

theorem get?_foldl_erase (ks : List Key) (m : SlotMap α) :
    (ks.foldl erase m).get? l = if l ∈ ks then none else m.get? l := by
  induction ks generalizing m with
  | nil => simp
  | cons k ks ih =>
      rw [List.foldl_cons, ih, get?_erase]
      by_cases hl : l ∈ ks
      · simp [hl]
      · simp only [hl, ↓reduceIte, List.mem_cons, or_false, eq_comm]

theorem insert_cases (h : m.Valid) (a : α) :
    (∃ i slot, m.slots[i]? = some slot ∧ slot.value = none ∧ m.insert a = (⟨i, slot.generation⟩,
      ⟨m.slots.setIfInBounds i ⟨slot.generation, some a, none⟩, slot.nextFree, m.size + 1⟩)) ∨
    m.insert a = m.push a := by
  obtain ⟨free, hfree⟩ := h
  cases free with
  | nil => exact .inr (hfree.insert_nil a)
  | cons i free =>
      obtain ⟨slot, hs, hv, _, heq⟩ := hfree.insert_cons a
      exact .inl ⟨i, slot, hs, hv, heq⟩

theorem get?_insert_key (h : m.Valid) (a : α) : m.get? (m.insert a).1 = none := by
  rcases insert_cases h a with ⟨i, slot, hs, hv, heq⟩ | heq
  · rw [heq]
    exact get?_of_vacant hs hv rfl
  · simp [heq, push, get?]

theorem get?_insert (h : m.Valid) (a : α) :
    (m.insert a).2.get? k = if k = (m.insert a).1 then some a else m.get? k := by
  rcases insert_cases h a with ⟨i, slot, hs, hv, heq⟩ | heq
  · have hlt := (Array.getElem?_eq_some_iff.mp hs).1
    rw [heq]
    by_cases hk : k.slot = i
    · have hkey : k = ⟨i, slot.generation⟩ ↔ slot.generation = k.generation := by
        cases k
        simp_all [eq_comm]
      simp only [hkey, get?_of_vacant hs hv hk]
      simp [get?, hk, hlt]
    · have hkey : k ≠ ⟨i, slot.generation⟩ := fun h => hk (h ▸ rfl)
      simp [get?, hkey, Ne.symm hk]
  · rw [heq, push]
    by_cases hk : k.slot = m.slots.size
    · have hkey : k = ⟨m.slots.size, 0⟩ ↔ 0 = k.generation := by
        cases k
        simp_all [eq_comm]
      simp only [hkey]
      simp [get?, hk]
    · have hkey : k ≠ ⟨m.slots.size, 0⟩ := fun h => hk (h ▸ rfl)
      simp [get?, hkey, Array.getElem?_push, hk]

theorem valid_empty : (empty : SlotMap α).Valid :=
  ⟨[], freeList_empty⟩

theorem valid_modify (h : m.Valid) : (m.modify k f).Valid := by
  obtain ⟨free, hfree⟩ := h
  exact ⟨free, freeList_modify hfree⟩

theorem valid_erase (h : m.Valid) : (m.erase k).Valid := by
  obtain ⟨free, hfree⟩ := h
  cases hk : m.get? k with
  | none =>
      rw [erase, contains, hk]
      exact ⟨free, hfree⟩
  | some a => exact ⟨k.slot :: free, freeList_erase hfree hk⟩

theorem valid_insert (h : m.Valid) (a : α) : (m.insert a).2.Valid := by
  obtain ⟨free, hfree⟩ := h
  cases free with
  | nil => exact ⟨[], hfree.insert_nil a ▸ freeList_push hfree a⟩
  | cons i free => exact ⟨free, freeList_insert hfree a⟩

def shape (m : SlotMap α) : SlotMap Unit :=
  ⟨m.slots.map fun slot => ⟨slot.generation, slot.value.map fun _ => (), slot.nextFree⟩,
    m.firstFree, m.size⟩

theorem get?_shape : m.shape.get? k = (m.get? k).map fun _ => () := by
  simp only [get?, shape, Array.getElem?_map]
  cases m.slots[k.slot]? with
  | none => rfl
  | some slot =>
      simp only [Option.map_some]
      split <;> rfl

theorem freeList_shape {free : List Nat} : m.shape.FreeList free ↔ m.FreeList free := by
  have vacant (i : Nat) : m.shape.Vacant i ↔ m.Vacant i := by
    simp only [Vacant, shape, Array.getElem?_map]
    cases m.slots[i]? <;> simp
  have next (i : Nat) : m.shape.slots[i]?.map (·.nextFree) = m.slots[i]?.map (·.nextFree) := by
    simp only [shape, Array.getElem?_map]
    cases m.slots[i]? <;> rfl
  constructor
  · intro h
    exact ⟨h.chain.congr fun i _ => (next i).symm, h.nodup, fun i => (h.mem_iff i).trans (vacant i)⟩
  · intro h
    exact ⟨h.chain.congr fun i _ => next i, h.nodup, fun i => (h.mem_iff i).trans (vacant i).symm⟩

theorem valid_shape : m.shape.Valid ↔ m.Valid :=
  exists_congr fun _ => freeList_shape

theorem contains_shape : m.shape.contains k = m.contains k := by
  rw [contains, get?_shape, Option.isSome_map, contains]

theorem shape_modify : (m.modify k f).shape = m.shape := by
  have slots : ((m.modify k f).slots.map fun slot : Slot α =>
      (⟨slot.generation, slot.value.map fun _ => (), slot.nextFree⟩ : Slot Unit)) =
      m.slots.map fun slot => ⟨slot.generation, slot.value.map fun _ => (), slot.nextFree⟩ := by
    apply Array.ext_getElem?
    intro i
    simp only [modify, Array.getElem?_map, Array.getElem?_modify]
    split
    · cases m.slots[i]? with
      | none => rfl
      | some slot =>
          simp only [Option.map_some]
          split <;> simp
    · rfl
  simp only [shape, slots]
  rfl

theorem shape_erase : (m.erase k).shape = m.shape.erase k := by
  unfold erase
  rw [contains_shape]
  split
  · simp only [shape, mk.injEq, and_true]
    apply Array.ext_getElem?
    intro i
    simp only [Array.getElem?_map, Array.getElem?_modify]
    split
    · cases m.slots[i]? <;> rfl
    · rfl
  · rfl

theorem shape_foldl_erase (ks : List Key) (m : SlotMap α) :
    (ks.foldl erase m).shape = ks.foldl erase m.shape := by
  induction ks generalizing m with
  | nil => rfl
  | cons k ks ih => rw [List.foldl_cons, List.foldl_cons, ih, shape_erase]

theorem shape_push (m : SlotMap α) (a : α) :
    m.shape.push () = ((m.push a).1, (m.push a).2.shape) := by
  simp [push, shape]

theorem shape_insert (m : SlotMap α) (a : α) :
    m.shape.insert () = ((m.insert a).1, (m.insert a).2.shape) := by
  have first : m.shape.firstFree = m.firstFree := rfl
  rw [insert, insert, first]
  cases m.firstFree with
  | none => exact shape_push m a
  | some i =>
      have slot : m.shape.slots[i]? = m.slots[i]?.map fun slot =>
          ⟨slot.generation, slot.value.map fun _ => (), slot.nextFree⟩ := by
        simp only [shape, Array.getElem?_map]
      simp only [slot]
      cases m.slots[i]? with
      | none => exact shape_push m a
      | some slot => simp [shape, Array.map_setIfInBounds]

end CssStyling.SlotMap
