import CssStyling.Proofs.Document.Paths

namespace CssStyling.Document

variable {d : Document} {x p id child parent : NodeId} {before : Option NodeId}

theorem parent?_link (hp : d.contains child = true) :
    (d.link parent child before).parent? x = if child = x then some parent else d.parent? x := by
  have hc : contains ⟨d.nodes.modify parent (Node.putChild child before)⟩ child = true :=
    contains_modify.trans hp
  unfold link
  rw [parent?_modify_parent hc, parent?_modify (f := Node.putChild child before) fun _ => rfl]

theorem children_link_eq (hp : d.contains parent = true) :
    (d.link parent child before).children p =
      if parent = p then (d.children p).takeWhile (fun c => some c != before) ++
        child :: (d.children p).dropWhile (fun c => some c != before) else d.children p := by
  unfold link
  rw [children_modify (f := fun n => { n with parent := some parent }) fun _ => rfl,
    children_modify_children (f := Node.putChild child before)
      (g := fun l => l.takeWhile (fun c => some c != before) ++
        child :: l.dropWhile (fun c => some c != before)) (fun _ => rfl) hp]

theorem children_link (hp : d.contains parent = true) :
    ((d.link parent child before).children p).Perm
      (if parent = p then child :: d.children p else d.children p) := by
  rw [children_link_eq hp]
  split
  · refine List.perm_middle.trans ?_
    rw [List.takeWhile_append_dropWhile]
  · exact List.Perm.refl _

theorem link_linked (h : d.Linked) (hp : d.contains parent = true)
    (hc : d.contains child = true) (hroot : d.parent? child = none)
    (hanc : ∀ l, Lineage d.parent? parent l → child ∉ l) :
    (d.link parent child before).Linked where
  valid := SlotMap.valid_modify (SlotMap.valid_modify h.valid)
  listed {x p} hx := by
    rw [parent?_link hc] at hx
    rw [(children_link hp).mem_iff]
    split at hx
    · rename_i hcx
      obtain rfl := Option.some.inj hx
      simp [hcx]
    · have hmem := h.listed hx
      split
      · exact List.mem_cons_of_mem _ hmem
      · exact hmem
  parent {x p} hx := by
    rw [(children_link hp).mem_iff] at hx
    have old (hx : x ∈ d.children p) :
        (d.link parent child before).parent? x = some p := by
      have hxp := h.parent hx
      have hne : child ≠ x := by
        rintro rfl
        simp [hroot] at hxp
      rw [parent?_link hc, if_neg hne, hxp]
    split at hx
    · rename_i hpp
      rcases List.mem_cons.mp hx with rfl | hx
      · rw [parent?_link hc, if_pos rfl, hpp]
      · exact old hx
    · exact old hx
  nodup p := by
    rw [(children_link hp).nodup_iff]
    split
    · refine List.nodup_cons.mpr ⟨fun hmem => ?_, h.nodup p⟩
      have hpar := h.parent hmem
      simp [hroot] at hpar
    · exact h.nodup p
  rooted := by
    refine h.rooted.relink (by rw [parent?_link hc, if_pos rfl]) (fun x hx => ?_) hanc
    rw [parent?_link hc, if_neg (Ne.symm hx)]

theorem detached_of_canInsert (h : d.Linked) (hcan : d.canInsert parent child before = true) :
    (d.detach child).contains parent = true ∧ (d.detach child).contains child = true ∧
      (∀ l, Lineage (d.detach child).parent? parent l → child ∉ l) ∧
      ∀ r, before = some r → r ∈ (d.detach child).children parent := by
  simp only [canInsert, Bool.and_eq_true, Bool.not_eq_true'] at hcan
  obtain ⟨⟨⟨hp, hc⟩, hanc⟩, hbefore⟩ := hcan
  refine ⟨contains_detach.trans hp, contains_detach.trans hc, fun m hm => ?_, ?_⟩
  · obtain ⟨l, hl⟩ := h.rooted parent
    have hmem : child ∉ l := by
      intro hmem
      rw [(h.isInclusiveAncestor_iff hl).mpr hmem] at hanc
      exact absurd hanc (by simp)
    have hl' : Lineage (d.detach child).parent? parent l := hl.congr fun x hx => by
      rw [parent?_detach, if_neg]
      rintro rfl
      exact hmem hx
    rwa [hm.unique hl']
  · rintro r rfl
    simp only [Bool.and_eq_true, bne_iff_ne, beq_iff_eq] at hbefore
    rw [children_detach h]
    exact (List.mem_erase_of_ne hbefore.1).mpr (h.listed hbefore.2)

theorem insertBefore_linked (h : d.Linked) (parent child : NodeId) (before : Option NodeId) :
    (d.insertBefore parent child before).2.Linked := by
  unfold insertBefore
  split
  · rename_i hcan
    obtain ⟨hp, hc, hanc, -⟩ := detached_of_canInsert h hcan
    exact link_linked (detach_linked h child) hp hc (by rw [parent?_detach, if_pos rfl]) hanc
  · exact h

theorem node?_foldl_erase {nodes : SlotMap Node} (freed : List NodeId) :
    node? ⟨freed.foldl SlotMap.erase nodes⟩ x =
      if x ∈ freed then none else node? ⟨nodes⟩ x :=
  SlotMap.get?_foldl_erase freed nodes

theorem parent?_foldl_erase {nodes : SlotMap Node} (freed : List NodeId) :
    parent? ⟨freed.foldl SlotMap.erase nodes⟩ x =
      if x ∈ freed then none else parent? ⟨nodes⟩ x := by
  rw [parent?, node?_foldl_erase]
  split <;> rfl

theorem children_foldl_erase {nodes : SlotMap Node} (freed : List NodeId) :
    children ⟨freed.foldl SlotMap.erase nodes⟩ x =
      if x ∈ freed then [] else children ⟨nodes⟩ x := by
  rw [children_eq, node?_foldl_erase]
  split
  · rfl
  · exact children_eq.symm

theorem valid_foldl_erase {nodes : SlotMap Node} (h : nodes.Valid) (freed : List NodeId) :
    (freed.foldl SlotMap.erase nodes).Valid := by
  induction freed generalizing nodes with
  | nil => exact h
  | cons y freed ih => exact ih (SlotMap.valid_erase h)

theorem mem_subtree_of_parent (h : d.Linked) (hx : d.parent? x = some p) (hne : id ≠ x) :
    x ∈ d.subtree id ↔ p ∈ d.subtree id := by
  obtain ⟨l, hl⟩ := h.rooted x
  obtain ⟨t, rfl, ht⟩ := hl.of_parent hx
  rw [h.mem_subtree_iff hl, h.mem_subtree_iff ht, List.mem_cons]
  exact ⟨fun hid => hid.resolve_left hne, .inr⟩

theorem mem_subtree_of_parent_detach (h : d.Linked) (hx : (d.detach id).parent? x = some p) :
    x ∈ d.subtree id ↔ p ∈ d.subtree id := by
  rw [parent?_detach] at hx
  split at hx
  · simp at hx
  · rename_i hne
    exact mem_subtree_of_parent h hx hne

theorem removeSubtree_linked (h : d.Linked) (id : NodeId) : (d.removeSubtree id).2.Linked := by
  unfold removeSubtree
  split
  · have detached := detach_linked h id
    refine ⟨valid_foldl_erase detached.valid _, fun {x p} hx => ?_, fun {x p} hx => ?_,
      fun p => ?_, detached.rooted.unlink fun x => ?_⟩
    · rw [parent?_foldl_erase] at hx
      split at hx
      · simp at hx
      · rename_i hmem
        have together := mem_subtree_of_parent_detach h hx
        rw [children_foldl_erase, if_neg fun hp => hmem (together.mpr hp)]
        exact detached.listed hx
    · rw [children_foldl_erase] at hx
      split at hx
      · simp at hx
      · rename_i hmem
        have hpar := detached.parent hx
        have together := mem_subtree_of_parent_detach h hpar
        rw [parent?_foldl_erase, if_neg fun hx => hmem (together.mp hx)]
        exact hpar
    · rw [children_foldl_erase]
      split
      · exact List.nodup_nil
      · exact detached.nodup p
    · rw [parent?_foldl_erase]
      split
      · exact .inr rfl
      · exact .inl rfl
  · exact h

inductive Reached : Document → Prop where
  | empty : Reached empty
  | create {d : Document} : Reached d → ∀ data, Reached (d.create data).2
  | insertBefore {d : Document} : Reached d →
      ∀ parent child before, Reached (d.insertBefore parent child before).2
  | detach {d : Document} : Reached d → ∀ id, Reached (d.detach id)
  | removeSubtree {d : Document} : Reached d → ∀ id, Reached (d.removeSubtree id).2
  | modifyElement {d : Document} : Reached d → ∀ id f, Reached (d.modifyElement id f)

theorem Reached.linked (h : Reached d) : d.Linked := by
  induction h with
  | empty => exact empty_linked
  | create _ data ih => exact create_linked ih data
  | insertBefore _ parent child before ih => exact insertBefore_linked ih parent child before
  | detach _ id ih => exact detach_linked ih id
  | removeSubtree _ id ih => exact removeSubtree_linked ih id
  | modifyElement _ id f ih => exact modifyElement_linked ih

end CssStyling.Document
