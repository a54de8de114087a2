import CssStyling.Proofs.SlotMap.Calls
import CssStyling.Proofs.SlotMap.Generations

namespace CssStyling.SlotMap

variable {α : Type} {m : SlotMap α} {k : Key} {a b : α} {free : List Nat}

def emptied : Call α × Answer α → List Nat
  | (.remove k, .value (some _)) => [k.slot]
  | _ => []

theorem emptied_remove (ha : m.get? k = some a) :
    emptied (.remove k, (m.perform (.remove k)).1) = [k.slot] := by
  simp only [perform, remove, ha, emptied]

theorem emptied_insert : emptied (.insert a, (m.perform (.insert a)).1) = [] :=
  rfl

theorem perform_emptied (m : SlotMap α) (c : Call α) :
    Emptied m (m.perform c).2 (emptied (c, (m.perform c).1)) := by
  cases c with
  | insert a => exact .insert m a
  | modify k f => exact .of_shape shape_modify
  | remove k =>
      cases hk : m.get? k with
      | none =>
          have same : m.erase k = m := by simp [erase, contains, hk]
          simp only [perform, remove, hk, same, emptied]
          exact .of_shape rfl
      | some a =>
          rw [emptied_remove hk]
          exact .erase (contains_of_get? hk)
  | _ => exact .of_shape rfl

theorem run_emptied (calls : List (Call α)) (m : SlotMap α) :
    Emptied m (m.run calls).2 ((calls.zip (m.run calls).1).flatMap emptied) := by
  induction calls generalizing m with
  | nil => exact .of_shape rfl
  | cons c cs ih => exact (perform_emptied m c).trans (ih (m.perform c).2)

theorem length_run (calls : List (Call α)) (m : SlotMap α) :
    (m.run calls).1.length = calls.length := by
  induction calls generalizing m with
  | nil => rfl
  | cons c cs ih => exact congrArg (· + 1) (ih (m.perform c).2)

theorem run_append (before after : List (Call α)) (m : SlotMap α) :
    m.run (before ++ after) = ((m.run before).1 ++ ((m.run before).2.run after).1,
      ((m.run before).2.run after).2) := by
  induction before generalizing m with
  | nil => rfl
  | cons c cs ih => simp only [List.cons_append, run, ih]

def rewritten (k : Key) (a : α) : Call α → α
  | .modify l f => if l = k then f a else a
  | _ => a

theorem valid_perform (h : m.Valid) (c : Call α) : (m.perform c).2.Valid := by
  cases c with
  | insert a => exact valid_insert h a
  | modify k f => exact valid_modify h
  | remove k => exact valid_erase h
  | _ => exact h

theorem valid_run (h : m.Valid) (calls : List (Call α)) : (m.run calls).2.Valid := by
  induction calls generalizing m with
  | nil => exact h
  | cons c cs ih => exact ih (valid_perform h c)

theorem get?_perform (h : m.Valid) (ha : m.get? k = some a) (c : Call α)
    (hc : k.slot ∉ emptied (c, (m.perform c).1)) :
    (m.perform c).2.get? k = some (rewritten k a c) := by
  cases c with
  | insert b =>
      have new : k ≠ (m.insert b).1 := by
        rintro rfl
        rw [get?_insert_key h] at ha
        cases ha
      rw [perform, get?_insert h, if_neg new]
      exact ha
  | modify l f =>
      rw [perform, get?_modify, ha, rewritten]
      split <;> rfl
  | remove l =>
      have other : l ≠ k := by
        rintro rfl
        rw [emptied_remove ha] at hc
        exact hc List.mem_cons_self
      rw [perform, remove, get?_erase, if_neg other]
      exact ha
  | _ => exact ha

theorem get?_run (h : m.Valid) (ha : m.get? k = some a) (calls : List (Call α))
    (hc : k.slot ∉ (calls.zip (m.run calls).1).flatMap emptied) :
    (m.run calls).2.get? k = some (calls.foldl (rewritten k) a) := by
  induction calls generalizing m a with
  | nil => exact ha
  | cons c cs ih =>
      rw [run, List.zip_cons_cons, List.flatMap_cons, List.mem_append, not_or] at hc
      exact ih (valid_perform h c) (get?_perform h ha c hc.1) hc.2

def removals (i : Nat) (calls : List (Call α)) (answers : List (Answer α)) : Nat :=
  ((calls.zip answers).flatMap emptied).count i

theorem removals_cons {i : Nat} {c : Call α} {r : Answer α} {cs : List (Call α)}
    {rs : List (Answer α)} :
    removals i (c :: cs) (r :: rs) = (emptied (c, r)).count i + removals i cs rs := by
  rw [removals, List.zip_cons_cons, List.flatMap_cons, List.count_append, removals]

structure Resolves (k : Key) (a : α) (later : List (Call α)) (n : Nat) (m : SlotMap α) : Prop where
  isSome_iff : (m.get? k).isSome = true ↔ m.Filled k.slot ∧ 2 ^ 32 ∣ n
  kept : n = 0 → m.get? k = some (later.foldl (rewritten k) a)
  stale : 0 < n → n < 2 ^ 32 → m.get? k = none

theorem get?_resolves (h : m.Valid) (ha : m.get? k = some a) (calls : List (Call α)) :
    Resolves k a calls (removals k.slot calls (m.run calls).1) (m.run calls).2 := by
  have found := (run_emptied calls m).contains_iff (contains_of_get? ha)
  refine ⟨found, fun none => ?_, fun some few => ?_⟩
  · exact get?_run h ha calls (List.count_eq_zero.mp none)
  · rw [← Option.not_isSome_iff_eq_none]
    intro present
    exact Nat.not_dvd_of_pos_of_lt some few (found.mp present).2

theorem run_resolves (before after : List (Call α)) (a : α) :
    let answers := ((empty : SlotMap α).run (before ++ .insert a :: after)).1
    let m := ((empty : SlotMap α).run (before ++ .insert a :: after)).2
    ∃ k, answers[before.length]? = some (.key k) ∧
      Resolves k a after (removals k.slot after (answers.drop (before.length + 1))) m := by
  intro answers m
  let start := ((empty : SlotMap α).run before).2
  have valid : start.Valid := valid_run valid_empty before
  have stored : (start.insert a).2.get? (start.insert a).1 = some a := by
    rw [get?_insert valid, if_pos rfl]
  have whole : answers = ((empty : SlotMap α).run before).1 ++
      .key (start.insert a).1 :: ((start.insert a).2.run after).1 := by
    simp only [answers, run_append]
    rfl
  have last : m = ((start.insert a).2.run after).2 := by
    simp only [m, run_append]
    rfl
  have place := length_run before (empty : SlotMap α)
  refine ⟨(start.insert a).1, ?_, ?_⟩
  · rw [whole, ← place, List.getElem?_append_right (Nat.le_refl _), Nat.sub_self, List.getElem?_cons_zero]
  · rw [whole, ← place, last, List.drop_length_add_append, List.drop_one, List.tail_cons]
    exact get?_resolves (valid_insert valid a) stored after

def turns (b : α) : Key → Nat → List (Call α)
  | _, 0 => []
  | k, n + 1 => .remove k :: .insert b :: turns b ⟨k.slot, k.generation + 1⟩ n

theorem insert_erase (h : m.FreeList free) (hk : m.get? k = some a) (b : α) :
    ((m.erase k).insert b).2.FreeList free ∧
      ((m.erase k).insert b).2.get? ⟨k.slot, k.generation + 1⟩ = some b := by
  have held := contains_of_get? hk
  have empty := freeList_erase h hk
  have slot := insert_slot empty b
  rw [List.headD_cons] at slot
  have filled : ((m.erase k).insert b).2.get? ((m.erase k).insert b).1 = some b := by
    rw [get?_insert ⟨_, empty⟩, if_pos rfl]
  have generation := generation_of_contains (contains_of_get? filled)
  rw [generation_insert, generation_erase held, slot, if_pos rfl,
    generation_of_contains held] at generation
  rw [generation, ← slot]
  exact ⟨freeList_insert empty b, filled⟩

theorem run_turns (h : m.FreeList free) (hk : m.get? k = some a) (b : α) (n : Nat) :
    removals k.slot (turns b k n) (m.run (turns b k n)).1 = n ∧
      (m.run (turns b k n)).2.get? ⟨k.slot, k.generation + UInt32.ofNat n⟩ =
        some (if n = 0 then a else b) := by
  induction n generalizing m k a with
  | zero => exact ⟨rfl, by simpa [turns, run] using hk⟩
  | succ n ih =>
      obtain ⟨free, filled⟩ := insert_erase h hk b
      obtain ⟨count, last⟩ := ih free filled
      rw [ite_self] at last
      refine ⟨?_, ?_⟩
      · rw [turns, run, run, removals_cons, removals_cons, emptied_remove hk, emptied_insert,
          List.count_singleton_self, List.count_nil, Nat.zero_add, Nat.add_comm]
        exact congrArg (· + 1) count
      · rw [UInt32.ofNat_add, UInt32.add_comm (UInt32.ofNat n), ← UInt32.add_assoc]
        exact last

/-- There the guarantee ends: the key finds a value that was stored later. -/
theorem exists_round (h : m.Valid) (hk : m.get? k = some a) (b : α) :
    ∃ calls, removals k.slot calls (m.run calls).1 = 2 ^ 32 ∧
      (m.run calls).2.get? k = some b := by
  obtain ⟨free, hfree⟩ := h
  obtain ⟨count, last⟩ := run_turns hfree hk b (2 ^ 32)
  refine ⟨turns b k (2 ^ 32), count, ?_⟩
  have round : UInt32.ofNat (2 ^ 32) = 0 := rfl
  rw [round, UInt32.add_zero] at last
  exact last

end CssStyling.SlotMap
