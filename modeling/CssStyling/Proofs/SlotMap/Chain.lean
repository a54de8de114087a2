import CssStyling.SlotMap
import Mathlib.Data.List.Nodup

namespace CssStyling.SlotMap

variable {α β : Type} {m : SlotMap α} {k : Key} {a : α} {f : α → α} {i : Nat} {o : Option Nat}
  {l free : List Nat} {slots : Array (Slot α)} {slots' : Array (Slot β)}

inductive Chain (slots : Array (Slot α)) : Option Nat → List Nat → Prop where
  | nil : Chain slots none []
  | cons {i : Nat} {next : Option Nat} {l : List Nat} :
      slots[i]?.map (·.nextFree) = some next → Chain slots next l → Chain slots (some i) (i :: l)

theorem Chain.congr (h : Chain slots o l)
    (hs : ∀ i ∈ l, slots'[i]?.map (·.nextFree) = slots[i]?.map (·.nextFree)) :
    Chain slots' o l := by
  induction h with
  | nil => exact .nil
  | cons hi _ ih =>
      refine .cons ((hs _ List.mem_cons_self).trans hi) (ih fun j hj => ?_)
      exact hs j (List.mem_cons_of_mem _ hj)

theorem get?_eq_some : m.get? k = some a ↔
    ∃ slot, m.slots[k.slot]? = some slot ∧ slot.generation = k.generation ∧
      slot.value = some a := by
  unfold get?
  cases m.slots[k.slot]? with
  | none => simp
  | some slot =>
      by_cases hg : slot.generation = k.generation <;> simp [hg]

def Vacant (m : SlotMap α) (i : Nat) : Prop :=
  ∃ slot, m.slots[i]? = some slot ∧ slot.value = none

structure FreeList (m : SlotMap α) (free : List Nat) : Prop where
  chain : Chain m.slots m.firstFree free
  nodup : free.Nodup
  mem_iff (i : Nat) : i ∈ free ↔ m.Vacant i

theorem freeList_empty : (empty : SlotMap α).FreeList [] where
  chain := .nil
  nodup := List.nodup_nil
  mem_iff i := by simp [Vacant, empty]

theorem FreeList.insert_nil (h : m.FreeList []) (a : α) : m.insert a = m.push a := by
  have first := h.chain
  generalize hf : m.firstFree = o at first
  cases first
  simp only [insert, hf]

theorem FreeList.insert_cons (h : m.FreeList (i :: free)) (a : α) :
    ∃ slot, m.slots[i]? = some slot ∧ slot.value = none ∧ Chain m.slots slot.nextFree free ∧
      m.insert a = (⟨i, slot.generation⟩,
        ⟨m.slots.setIfInBounds i ⟨slot.generation, some a, none⟩, slot.nextFree, m.size + 1⟩) := by
  obtain ⟨slot, hs, hv⟩ := (h.mem_iff i).mp List.mem_cons_self
  have first := h.chain
  generalize hf : m.firstFree = o at first
  cases first with
  | cons hn ht =>
      rw [hs, Option.map_some] at hn
      obtain rfl := Option.some.inj hn
      exact ⟨slot, hs, hv, ht, by simp only [insert, hf, hs]⟩

theorem freeList_push (h : m.FreeList []) (a : α) : (m.push a).2.FreeList [] where
  chain := by
    have first := h.chain
    generalize hf : m.firstFree = o at first
    cases first
    rw [push, hf]
    exact .nil
  nodup := List.nodup_nil
  mem_iff i := by
    refine iff_of_false List.not_mem_nil ?_
    rintro ⟨slot, hs, hv⟩
    simp only [push, Array.getElem?_push] at hs
    split at hs
    · obtain rfl := Option.some.inj hs
      cases hv
    · exact List.not_mem_nil ((h.mem_iff i).mpr ⟨slot, hs, hv⟩)

theorem freeList_insert (h : m.FreeList (i :: free)) (a : α) : (m.insert a).2.FreeList free := by
  obtain ⟨slot, hs, _, ht, heq⟩ := h.insert_cons a
  obtain ⟨hi, hn⟩ := List.nodup_cons.mp h.nodup
  have other {j : Nat} (hj : j ≠ i) :
      (m.slots.setIfInBounds i ⟨slot.generation, some a, none⟩)[j]? = m.slots[j]? := by
    rw [Array.getElem?_setIfInBounds, if_neg (Ne.symm hj)]
  rw [heq]
  refine ⟨ht.congr fun j hj => ?_, hn, fun j => ?_⟩
  · rw [other (by rintro rfl; exact hi hj)]
  · rcases eq_or_ne j i with rfl | hj
    · refine iff_of_false hi ?_
      rintro ⟨slot', hs', hv'⟩
      have hlt := (Array.getElem?_eq_some_iff.mp hs).1
      simp only [Array.getElem?_setIfInBounds, if_true, hlt] at hs'
      obtain rfl := Option.some.inj hs'
      cases hv'
    · rw [Vacant, other hj]
      exact (List.mem_cons.trans (or_iff_right hj)).symm.trans (h.mem_iff j)

theorem freeList_modify (h : m.FreeList free) : (m.modify k f).FreeList free where
  chain := by
    refine h.chain.congr fun i _ => ?_
    rw [modify, Array.getElem?_modify]
    split
    · cases m.slots[i]? with
      | none => rfl
      | some slot =>
          rw [Option.map_some, Option.map_some]
          split <;> rfl
    · rfl
  nodup := h.nodup
  mem_iff i := by
    rw [h.mem_iff, Vacant, Vacant, modify, Array.getElem?_modify]
    split
    · cases m.slots[i]? with
      | none => simp
      | some slot =>
          rw [Option.map_some]
          split <;> simp
    · rfl

theorem freeList_erase (h : m.FreeList free) (hk : m.get? k = some a) :
    (m.erase k).FreeList (k.slot :: free) := by
  obtain ⟨slot, hs, _, hv⟩ := get?_eq_some.mp hk
  have filled : ¬m.Vacant k.slot := by
    rintro ⟨slot', hs', hv'⟩
    obtain rfl := Option.some.inj (hs.symm.trans hs')
    simp [hv] at hv'
  have hfree : k.slot ∉ free := fun hmem => filled ((h.mem_iff _).mp hmem)
  have other {j : Nat} (hj : j ≠ k.slot) : (m.slots.modify k.slot fun slot =>
      ⟨slot.generation + 1, none, m.firstFree⟩)[j]? = m.slots[j]? := by
    rw [Array.getElem?_modify, if_neg (Ne.symm hj)]
  have heq : m.erase k = ⟨m.slots.modify k.slot fun slot =>
      ⟨slot.generation + 1, none, m.firstFree⟩, some k.slot, m.size - 1⟩ := by
    rw [erase, contains, hk]
    rfl
  rw [heq]
  refine ⟨.cons ?_ (h.chain.congr fun j hj => ?_), List.nodup_cons.mpr ⟨hfree, h.nodup⟩,
    fun j => ?_⟩
  · rw [Array.getElem?_modify, if_pos rfl, hs]
    rfl
  · rw [other (by rintro rfl; exact hfree hj)]
  · rw [Vacant]
    rcases eq_or_ne j k.slot with rfl | hj
    · refine iff_of_true List.mem_cons_self ⟨⟨slot.generation + 1, none, m.firstFree⟩, ?_, rfl⟩
      rw [Array.getElem?_modify, if_pos rfl, hs]
      rfl
    · rw [other hj]
      exact (List.mem_cons.trans (or_iff_right hj)).trans (h.mem_iff j)

end CssStyling.SlotMap
