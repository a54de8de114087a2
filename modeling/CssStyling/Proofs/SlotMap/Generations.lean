import CssStyling.Proofs.SlotMap
import Mathlib

namespace CssStyling.SlotMap

variable {α β : Type} {m m' m'' : SlotMap α} {n n' : SlotMap β} {k : Key} {i : Nat}
  {is js : List Nat}

def generation (m : SlotMap α) (i : Nat) : UInt32 :=
  (m.slots[i]?.map (·.generation)).getD 0

theorem contains_of_get? {a : α} (h : m.get? k = some a) : m.contains k = true :=
  Option.isSome_iff_exists.mpr ⟨a, h⟩

theorem generation_of_contains (h : m.contains k = true) : m.generation k.slot = k.generation := by
  obtain ⟨a, ha⟩ := Option.isSome_iff_exists.mp h
  obtain ⟨slot, hs, hg, -⟩ := get?_eq_some.mp ha
  rw [generation, hs]
  exact hg

def Filled (m : SlotMap α) (i : Nat) : Prop :=
  ∃ slot, m.slots[i]? = some slot ∧ slot.value.isSome = true

theorem contains_iff :
    m.contains k = true ↔ m.Filled k.slot ∧ m.generation k.slot = k.generation := by
  constructor
  · intro h
    obtain ⟨a, ha⟩ := Option.isSome_iff_exists.mp h
    obtain ⟨slot, hs, -, hv⟩ := get?_eq_some.mp ha
    exact ⟨⟨slot, hs, hv ▸ rfl⟩, generation_of_contains h⟩
  · rintro ⟨⟨slot, hs, hv⟩, hg⟩
    obtain ⟨a, ha⟩ := Option.isSome_iff_exists.mp hv
    rw [generation, hs] at hg
    exact contains_of_get? (get?_eq_some.mpr ⟨slot, hs, hg, ha⟩)

theorem generation_shape : m.shape.generation i = m.generation i := by
  simp only [generation, shape, Array.getElem?_map, Option.map_map]
  rfl

theorem generation_push (m : SlotMap α) (a : α) :
    (m.push a).2.generation i = m.generation i := by
  rw [generation, push, Array.getElem?_push]
  split
  · rename_i hi
    rw [generation, Array.getElem?_eq_none (Nat.le_of_eq hi.symm)]
    rfl
  · rfl

theorem generation_insert (m : SlotMap α) (a : α) :
    (m.insert a).2.generation i = m.generation i := by
  unfold insert
  split
  · split
    · rename_i j slot hj
      rw [generation, Array.getElem?_setIfInBounds]
      split
      · rename_i hi
        subst i
        rw [if_pos (Array.getElem?_eq_some_iff.mp hj).1, generation, hj]
        rfl
      · rfl
    · exact generation_push m a
  · exact generation_push m a

theorem generation_erase (h : m.contains k = true) : (m.erase k).generation i =
    if k.slot = i then m.generation i + 1 else m.generation i := by
  obtain ⟨a, ha⟩ := Option.isSome_iff_exists.mp h
  obtain ⟨slot, hs, -⟩ := get?_eq_some.mp ha
  rw [erase, if_pos h, generation, Array.getElem?_modify, generation]
  split
  · rename_i hi
    rw [← hi, hs]
    rfl
  · rfl

/-- Between the two maps every slot has been emptied as often as it is listed. -/
def Emptied (m m' : SlotMap α) (is : List Nat) : Prop :=
  ∀ i, m'.generation i = m.generation i + UInt32.ofNat (is.count i)

namespace Emptied

theorem of_generation (h : ∀ i, m'.generation i = m.generation i) : Emptied m m' [] :=
  fun i => by simp [h]

theorem insert (m : SlotMap α) (a : α) : Emptied m (m.insert a).2 [] :=
  .of_generation fun _ => generation_insert m a

theorem of_shape (h : m'.shape = m.shape) : Emptied m m' [] :=
  .of_generation fun _ => by rw [← generation_shape, h, generation_shape]

theorem congr (h : Emptied m m' is) (hm : n.shape = m.shape) (hm' : n'.shape = m'.shape) :
    Emptied n n' is := fun i => by
  rw [← generation_shape, hm', generation_shape, h i, ← generation_shape, ← hm, generation_shape]

theorem trans (h : Emptied m m' is) (h' : Emptied m' m'' js) : Emptied m m'' (is ++ js) := by
  intro i
  rw [h' i, h i, List.count_append, UInt32.ofNat_add, UInt32.add_assoc]

theorem erase (h : m.contains k = true) : Emptied m (m.erase k) [k.slot] := by
  intro i
  rw [generation_erase h, List.count_singleton]
  by_cases hi : k.slot = i <;> simp [hi]

theorem foldl_erase {ks : List Key} (hn : ks.Nodup) (hk : ∀ k ∈ ks, m.contains k = true) :
    Emptied m (ks.foldl SlotMap.erase m) (ks.map (·.slot)) := by
  induction ks generalizing m with
  | nil => exact .of_shape rfl
  | cons k ks ih =>
      obtain ⟨hnew, hn⟩ := List.nodup_cons.mp hn
      refine trans (.erase (hk k List.mem_cons_self)) (ih hn fun l hl => ?_)
      have hkl : k ≠ l := fun h => hnew (h ▸ hl)
      rw [contains, get?_erase, if_neg hkl]
      exact hk l (List.mem_cons_of_mem k hl)

theorem contains_iff (h : Emptied m m' is) (hk : m.contains k = true) :
    m'.contains k = true ↔ m'.Filled k.slot ∧ 2 ^ 32 ∣ is.count k.slot := by
  have turned := h k.slot
  rw [generation_of_contains hk] at turned
  have round : UInt32.ofNat (is.count k.slot) = 0 ↔ 2 ^ 32 ∣ is.count k.slot := by
    rw [← UInt32.toNat_inj, UInt32.toNat_ofNat', Nat.dvd_iff_mod_eq_zero]
    rfl
  rw [SlotMap.contains_iff, turned, UInt32.add_eq_left, round]

end Emptied

end CssStyling.SlotMap
