import CssStyling.Proofs.SlotMap
import Mathlib.Algebra.Group.Nat.Defs
import Std.Data.ExtTreeMap

namespace CssStyling.SlotMap

variable {α : Type} {m : SlotMap α} {k : Key} {a : α} {free : List Nat}
  {t t' : Std.ExtTreeMap Key α}

inductive Call (α : Type) where
  | insert (a : α)
  | get (k : Key)
  | modify (k : Key) (f : α → α)
  | remove (k : Key)
  | contains (k : Key)
  | size
  | toList

inductive Answer (α : Type) where
  | key (k : Key)
  | value (a : Option α)
  | flag (b : Bool)
  | count (n : Nat)
  | entries (es : List (Key × α))

def perform (m : SlotMap α) : Call α → Answer α × SlotMap α
  | .insert a => (.key (m.insert a).1, (m.insert a).2)
  | .get k => (.value (m.get? k), m)
  | .modify k f => (.value (m.get? k), m.modify k f)
  | .remove k => (.value (m.remove k).1, (m.remove k).2)
  | .contains k => (.flag (m.contains k), m)
  | .size => (.count m.size, m)
  | .toList => (.entries m.toList, m)

def run (m : SlotMap α) : List (Call α) → List (Answer α) × SlotMap α
  | [] => ([], m)
  | c :: cs =>
      let rest := (m.perform c).2.run cs
      ((m.perform c).1 :: rest.1, rest.2)

/-- The key of a new entry is left open, as long as the map does not have it. -/
inductive Serves : Std.ExtTreeMap Key α → Call α → Answer α → Std.ExtTreeMap Key α → Prop where
  | insert {t : Std.ExtTreeMap Key α} {k : Key} (a : α) : k ∉ t →
      Serves t (.insert a) (.key k) (t.insert k a)
  | get {t : Std.ExtTreeMap Key α} (k : Key) : Serves t (.get k) (.value t[k]?) t
  | modify {t : Std.ExtTreeMap Key α} (k : Key) (f : α → α) :
      Serves t (.modify k f) (.value t[k]?) (t.modify k f)
  | remove {t : Std.ExtTreeMap Key α} (k : Key) :
      Serves t (.remove k) (.value t[k]?) (t.erase k)
  | contains {t : Std.ExtTreeMap Key α} (k : Key) :
      Serves t (.contains k) (.flag (t.contains k)) t
  | size {t : Std.ExtTreeMap Key α} : Serves t .size (.count t.size) t
  | toList {t : Std.ExtTreeMap Key α} {es : List (Key × α)} :
      es.Pairwise (fun x y => x.1.slot < y.1.slot) → (∀ k a, (k, a) ∈ es ↔ t[k]? = some a) →
      Serves t .toList (.entries es) t

inductive ServesAll :
    Std.ExtTreeMap Key α → List (Call α) → List (Answer α) → Std.ExtTreeMap Key α → Prop where
  | nil {t : Std.ExtTreeMap Key α} : ServesAll t [] [] t
  | cons {t t' t'' : Std.ExtTreeMap Key α} {c : Call α} {r : Answer α} {cs : List (Call α)}
      {rs : List (Answer α)} : Serves t c r t' → ServesAll t' cs rs t'' →
      ServesAll t (c :: cs) (r :: rs) t''

def stack (free : List Nat) : Call α × Answer α → List Nat
  | (.insert _, _) => free.tail
  | (.remove k, .value (some _)) => k.slot :: free
  | _ => free

theorem entry?_eq_some {i : Nat} {slot : Slot α} : entry? i slot = some (k, a) ↔
    i = k.slot ∧ slot.generation = k.generation ∧ slot.value = some a := by
  rw [ entry?, Option.map_eq_some_iff]
  constructor
  · rintro ⟨b, hb, heq⟩
    obtain ⟨rfl, rfl⟩ := Prod.mk.inj heq
    exact ⟨rfl, rfl, hb⟩
  · rintro ⟨rfl, hg, hv⟩
    exact ⟨a, hv, by rw [hg]⟩

theorem mem_toList : (k, a) ∈ m.toList ↔ m.get? k = some a := by
  simp only [toList, List.mem_filterMap, Prod.exists, List.mem_zipIdx_iff_getElem?,
    Array.getElem?_toList, entry?_eq_some, get?_eq_some]
  constructor
  · rintro ⟨slot, i, hs, rfl, hg, hv⟩
    exact ⟨slot, hs, hg, hv⟩
  · rintro ⟨slot, hs, hg, hv⟩
    exact ⟨slot, k.slot, hs, rfl, hg, hv⟩

theorem toList_pairwise : m.toList.Pairwise fun x y => x.1.slot < y.1.slot := by
  have places : m.slots.toList.zipIdx.Pairwise fun x y => x.2 < y.2 := by
    refine List.pairwise_map.mp ?_
    rw [List.zipIdx_map_snd]
    exact List.pairwise_lt_range'
  refine List.Pairwise.filterMap _ ?_ places
  rintro ⟨slot, i⟩ ⟨slot', j⟩ hij ⟨k, a⟩ hk ⟨l, b⟩ hl
  obtain ⟨rfl, -, -⟩ := entry?_eq_some.mp hk
  obtain ⟨rfl, -, -⟩ := entry?_eq_some.mp hl
  exact hij

theorem insert_slot (h : m.FreeList free) (a : α) :
    (m.insert a).1.slot = free.headD m.slots.size := by
  cases free with
  | nil => rw [h.insert_nil, push, List.headD_nil]
  | cons i free =>
      obtain ⟨slot, -, -, -, heq⟩ := h.insert_cons a
      rw [heq, List.headD_cons]

theorem size_insert (h : m.FreeList free) (a : α) : (m.insert a).2.size = m.size + 1 := by
  cases free with
  | nil => rw [h.insert_nil, push]
  | cons i free =>
      obtain ⟨slot, -, -, -, heq⟩ := h.insert_cons a
      rw [heq]

theorem freeList_insert_tail (h : m.FreeList free) (a : α) :
    (m.insert a).2.FreeList free.tail := by
  cases free with
  | nil => exact h.insert_nil a ▸ freeList_push h a
  | cons i free => exact freeList_insert h a

structure Represents (m : SlotMap α) (free : List Nat) (t : Std.ExtTreeMap Key α) : Prop where
  free : m.FreeList free
  get? (k : Key) : t[k]? = m.get? k
  size : m.size = t.size

theorem represents_empty : Represents (empty : SlotMap α) [] ∅ where
  free := freeList_empty
  get? k := by simp
  size := by simp [empty]

namespace Represents

theorem contains_eq (h : Represents m free t) : t.contains k = m.contains k := by
  rw [Std.ExtTreeMap.contains_eq_isSome_getElem?, h.get?, contains]

theorem key_not_mem (h : Represents m free t) (a : α) : (m.insert a).1 ∉ t := by
  rw [← Std.ExtTreeMap.contains_iff_mem, h.contains_eq, contains, get?_insert_key ⟨free, h.free⟩]
  exact Bool.false_ne_true

theorem insert (h : Represents m free t) (a : α) :
    Represents (m.insert a).2 free.tail (t.insert (m.insert a).1 a) where
  free := freeList_insert_tail h.free a
  get? k := by
    rw [get?_insert ⟨free, h.free⟩, Std.ExtTreeMap.getElem?_insert, h.get?]
    simp only [Std.compare_eq_iff_eq, @eq_comm _ k]
  size := by
    have absent : ¬t.contains (m.insert a).1 = true := h.key_not_mem a
    rw [size_insert h.free, Std.ExtTreeMap.size_insert, if_neg absent, h.size]

theorem modify (h : Represents m free t) (k : Key) (f : α → α) :
    Represents (m.modify k f) free (t.modify k f) where
  free := freeList_modify h.free
  get? l := by
    rw [get?_modify, Std.ExtTreeMap.getElem?_modify]
    simp only [Std.compare_eq_iff_eq, h.get?]
    split
    · rename_i hkl
      rw [hkl]
    · rfl
  size := by
    rw [Std.ExtTreeMap.size_modify]
    exact h.size

theorem erase (h : Represents m free t) (k : Key) :
    Represents (m.erase k) (stack free ((.remove k : Call α), .value (m.get? k))) (t.erase k) where
  free := by
    cases hk : m.get? k with
    | none =>
        rw [SlotMap.erase, SlotMap.contains, hk]
        exact h.free
    | some a => exact freeList_erase h.free hk
  get? l := by
    rw [get?_erase, Std.ExtTreeMap.getElem?_erase]
    simp only [Std.compare_eq_iff_eq, h.get?]
  size := by
    rw [Std.ExtTreeMap.size_erase, SlotMap.erase, h.contains_eq]
    split
    · rw [h.size]
    · exact h.size

end Represents

theorem perform_serves (h : Represents m free t) (c : Call α) :
    ∃ t', Serves t c (m.perform c).1 t' ∧
      Represents (m.perform c).2 (stack free (c, (m.perform c).1)) t' := by
  cases c with
  | insert a => exact ⟨_, .insert a (h.key_not_mem a), h.insert a⟩
  | get k =>
      refine ⟨t, ?_, h⟩
      rw [perform, ← h.get?]
      exact .get k
  | modify k f =>
      refine ⟨t.modify k f, ?_, h.modify k f⟩
      rw [perform, ← h.get?]
      exact .modify k f
  | remove k =>
      refine ⟨t.erase k, ?_, h.erase k⟩
      rw [perform, remove, ← h.get?]
      exact .remove k
  | contains k =>
      refine ⟨t, ?_, h⟩
      rw [perform, ← h.contains_eq]
      exact .contains k
  | size =>
      refine ⟨t, ?_, h⟩
      rw [perform, h.size]
      exact .size
  | toList =>
      refine ⟨t, .toList toList_pairwise fun k a => ?_, h⟩
      rw [mem_toList, h.get?]

theorem run_represents (calls : List (Call α)) (h : Represents m free t) :
    ∃ t', ServesAll t calls (m.run calls).1 t' ∧
      Represents (m.run calls).2 ((calls.zip (m.run calls).1).foldl stack free) t' := by
  induction calls generalizing m free t with
  | nil => exact ⟨t, .nil, h⟩
  | cons c cs ih =>
      obtain ⟨t', hserves, hstep⟩ := perform_serves h c
      obtain ⟨t'', hall, hrest⟩ := ih hstep
      exact ⟨t'', .cons hserves hall, hrest⟩

theorem insert_slot_lt (m : SlotMap α) (a : α) :
    (m.insert a).1.slot < (m.insert a).2.slots.size ∧
      m.slots.size ≤ (m.insert a).2.slots.size := by
  unfold insert
  split
  · split
    · rename_i hi
      have inside := (Array.getElem?_eq_some_iff.mp hi).1
      exact ⟨Nat.lt_of_lt_of_eq inside Array.size_setIfInBounds.symm,
        Nat.le_of_eq Array.size_setIfInBounds.symm⟩
    · simp [push]
  · simp [push]

theorem size_le_perform (m : SlotMap α) (c : Call α) :
    m.slots.size ≤ (m.perform c).2.slots.size := by
  cases c with
  | insert a => exact (insert_slot_lt m a).2
  | modify k f => exact Nat.le_of_eq Array.size_modify.symm
  | remove k =>
      rw [perform, remove, SlotMap.erase]
      split
      · exact Nat.le_of_eq Array.size_modify.symm
      · exact Nat.le_refl _
  | _ => exact Nat.le_refl _

theorem size_le_run (calls : List (Call α)) (m : SlotMap α) :
    m.slots.size ≤ (m.run calls).2.slots.size := by
  induction calls generalizing m with
  | nil => exact Nat.le_refl _
  | cons c cs ih => exact Nat.le_trans (size_le_perform m c) (ih _)

theorem slot_lt_of_mem_run (calls : List (Call α)) (m : SlotMap α)
    (h : .key k ∈ (m.run calls).1) : k.slot < (m.run calls).2.slots.size := by
  induction calls generalizing m with
  | nil => cases h
  | cons c cs ih =>
      rcases List.mem_cons.mp h with hk | hk
      · cases c with
        | insert a =>
            cases hk
            exact Nat.lt_of_lt_of_le (insert_slot_lt m a).1 (size_le_run cs _)
        | _ => cases hk
      · exact ih _ hk

theorem run_serves (calls : List (Call α)) :
    let answers := ((empty : SlotMap α).run calls).1
    let m := ((empty : SlotMap α).run calls).2
    let free := (calls.zip answers).foldl stack []
    (∃ t, ServesAll ∅ calls answers t ∧ ∀ k, t[k]? = m.get? k) ∧ m.FreeList free ∧
      (∀ a, (m.insert a).1.slot = free.headD m.slots.size) ∧
      (m.slots.size ≤ 2 ^ 32 → ∀ k, .key k ∈ answers → (UInt32.ofNat k.slot).toNat = k.slot) := by
  intro answers m free
  obtain ⟨t, hall, hm⟩ := run_represents calls represents_empty
  refine ⟨⟨t, hall, hm.get?⟩, hm.free, insert_slot hm.free, fun room k hk => ?_⟩
  have inside : k.slot < m.slots.size := slot_lt_of_mem_run calls empty hk
  exact UInt32.toNat_ofNat_of_lt' (Nat.lt_of_lt_of_le inside room)

example : ((empty : SlotMap Nat).run [.insert 7, .insert 8, .remove ⟨0, 0⟩, .remove ⟨1, 0⟩,
    .remove ⟨1, 0⟩, .insert 9, .toList]).1 = [.key ⟨0, 0⟩, .key ⟨1, 0⟩, .value (some 7),
    .value (some 8), .value none, .key ⟨1, 1⟩, .entries [(⟨1, 1⟩, 9)]] := by
  rfl

end CssStyling.SlotMap
