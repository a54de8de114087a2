import CssStyling.Proofs.Document.Links

namespace CssStyling.Document

variable {d : Document} {x y p id : NodeId} {l m pre post : List NodeId} {n : Nat}

theorem length_le_height (hn : l.Nodup) (hl : ∀ x ∈ l, d.contains x = true) :
    l.length ≤ d.height := by
  have distinct : (l.map (·.slot)).Nodup := by
    refine hn.map_on fun y hy z hz hslot => ?_
    obtain ⟨node, hnode⟩ := contains_iff.mp (hl y hy)
    obtain ⟨node', hnode'⟩ := contains_iff.mp (hl z hz)
    exact SlotMap.key_eq_of_slot hnode hnode' hslot
  have bounded : l.map (·.slot) ⊆ List.range d.height := by
    intro i hi
    obtain ⟨y, hy, rfl⟩ := List.mem_map.mp hi
    obtain ⟨node, hnode⟩ := contains_iff.mp (hl y hy)
    exact List.mem_range.mpr (SlotMap.slot_lt_of_get? hnode)
  have hle := (distinct.subperm bounded).length_le
  simpa using hle

theorem Linked.lineage_le (h : d.Linked) (hx : d.contains x = true)
    (hl : Lineage d.parent? x l) : l.length ≤ d.height :=
  length_le_height hl.nodup
    (hl.mem_of_closed (P := fun y => d.contains y = true) hx fun _ _ => h.contains_parent)

theorem Linked.lineage_tail_le (h : d.Linked) (hl : Lineage d.parent? x l) :
    l.tail.length ≤ d.height := by
  cases hl with
  | root => simp
  | step hp ht => exact h.lineage_le (h.contains_parent hp) ht

theorem ancestorsWithin_eq (h : Lineage d.parent? x l) (hn : l.tail.length ≤ n) :
    d.ancestorsWithin n x = l.tail := by
  induction n generalizing x l with
  | zero =>
      have hnil : l.tail = [] := List.length_eq_zero_iff.mp (by omega)
      rw [hnil]
      rfl
  | succ n ih =>
      cases h with
      | root hr => simp only [ancestorsWithin, hr, List.tail_cons]
      | step hp ht =>
          obtain ⟨t, rfl⟩ := ht.eq_cons
          simp only [ancestorsWithin, hp, List.tail_cons, List.length_cons] at hn ⊢
          rw [ih ht (by simpa using hn), List.tail_cons]

theorem Linked.ancestors_eq (h : d.Linked) (hl : Lineage d.parent? x l) :
    d.ancestors x = l.tail :=
  ancestorsWithin_eq hl (h.lineage_tail_le hl)

theorem Linked.isInclusiveAncestor_iff (h : d.Linked) (hl : Lineage d.parent? x l) :
    d.isInclusiveAncestor y x = true ↔ y ∈ l := by
  obtain ⟨t, rfl⟩ := hl.eq_cons
  rw [isInclusiveAncestor, h.ancestors_eq hl]
  simp

theorem mem_descendantsWithin (h : d.Linked) (hl : Lineage d.parent? x (pre ++ id :: post))
    (hpre : pre ≠ []) (hn : pre.length ≤ n) : x ∈ d.descendantsWithin n id := by
  induction n generalizing pre id post with
  | zero => exact absurd (List.length_eq_zero_iff.mp (by omega)) hpre
  | succ n ih =>
      obtain ⟨pre, c, rfl⟩ := (List.eq_nil_or_concat pre).resolve_left hpre
      rw [List.concat_eq_append, List.append_assoc, List.singleton_append] at hl
      simp only [descendantsWithin, List.mem_flatMap, List.mem_cons]
      refine ⟨c, h.listed hl.parent_of_append, ?_⟩
      by_cases hnil : pre = []
      · subst pre
        obtain ⟨t, ht⟩ := hl.eq_cons
        exact .inl (List.cons.inj ht).1.symm
      · exact .inr (ih hl hnil (by simpa using hn))

theorem exists_of_mem_descendantsWithin (h : d.Linked) (hid : Lineage d.parent? id l)
    (hx : x ∈ d.descendantsWithin n id) :
    ∃ pre, pre ≠ [] ∧ Lineage d.parent? x (pre ++ l) := by
  induction n generalizing id l with
  | zero => simp [descendantsWithin] at hx
  | succ n ih =>
      simp only [descendantsWithin, List.mem_flatMap, List.mem_cons] at hx
      obtain ⟨c, hc, rfl | hx⟩ := hx
      · exact ⟨[x], by simp, .step (h.parent hc) hid⟩
      · obtain ⟨pre, _, hlin⟩ := ih (.step (h.parent hc) hid) hx
        exact ⟨pre ++ [c], by simp, by simpa using hlin⟩

theorem Linked.mem_subtree_iff (h : d.Linked) (hl : Lineage d.parent? x l) :
    x ∈ d.subtree id ↔ id ∈ l := by
  rw [subtree, List.mem_cons]
  constructor
  · rintro (rfl | hx)
    · exact hl.mem_self
    · obtain ⟨m, hm⟩ := h.rooted id
      obtain ⟨pre, _, hlin⟩ := exists_of_mem_descendantsWithin h hm hx
      rw [hl.unique hlin]
      exact List.mem_append_right pre hm.mem_self
  · intro hid
    obtain ⟨pre, post, rfl⟩ := List.append_of_mem hid
    by_cases hpre : pre = []
    · subst pre
      obtain ⟨t, ht⟩ := hl.eq_cons
      exact .inl (List.cons.inj ht).1.symm
    · refine .inr (mem_descendantsWithin h hl hpre ?_)
      have hle := h.lineage_tail_le hl
      simp only [List.length_tail, List.length_append, List.length_cons] at hle
      omega

end CssStyling.Document
