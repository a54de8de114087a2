import CssStyling.Document.Edit
import CssStyling.Proofs.Lineage
import CssStyling.Proofs.SlotMap

namespace CssStyling.Document

variable {d d' : Document} {x p id child parent : NodeId} {l : List NodeId}

structure Linked (d : Document) : Prop where
  valid : d.nodes.Valid
  listed {x p : NodeId} : d.parent? x = some p → x ∈ d.children p
  parent {x p : NodeId} : x ∈ d.children p → d.parent? x = some p
  nodup (p : NodeId) : (d.children p).Nodup
  rooted : Rooted d.parent?

theorem children_eq : d.children x = ((d.node? x).map (·.children)).getD [] := by
  unfold children
  cases d.node? x <;> rfl

theorem contains_iff : d.contains x = true ↔ ∃ node, d.node? x = some node :=
  Option.isSome_iff_exists

theorem contains_of_parent? (h : d.parent? x = some p) : d.contains x = true := by
  obtain ⟨node, hx, _⟩ := Option.bind_eq_some_iff.mp h
  exact contains_iff.mpr ⟨node, hx⟩

theorem contains_of_mem_children (h : x ∈ d.children p) : d.contains p = true := by
  unfold children at h
  cases hp : d.node? p with
  | none => simp [hp] at h
  | some node => exact contains_iff.mpr ⟨node, hp⟩

theorem Linked.contains_parent (h : d.Linked) (hx : d.parent? x = some p) : d.contains p = true :=
  contains_of_mem_children (h.listed hx)

theorem node?_modify {nodes : SlotMap Node} {f : Node → Node} :
    node? ⟨nodes.modify id f⟩ x =
      if id = x then (node? ⟨nodes⟩ x).map f else node? ⟨nodes⟩ x :=
  SlotMap.get?_modify

theorem parent?_modify {nodes : SlotMap Node} {f : Node → Node} (hf : ∀ n, (f n).parent = n.parent) :
    parent? ⟨nodes.modify id f⟩ x = parent? ⟨nodes⟩ x := by
  rw [parent?, node?_modify, parent?]
  split
  · cases node? ⟨nodes⟩ x <;> simp [hf]
  · rfl

theorem children_modify {nodes : SlotMap Node} {f : Node → Node}
    (hf : ∀ n, (f n).children = n.children) :
    children ⟨nodes.modify id f⟩ x = children ⟨nodes⟩ x := by
  rw [children_eq, node?_modify, children_eq]
  split
  · cases node? ⟨nodes⟩ x <;> simp [hf]
  · rfl

theorem parent?_modify_parent {nodes : SlotMap Node} {q : Option NodeId}
    (h : contains ⟨nodes⟩ id = true) :
    parent? ⟨nodes.modify id fun n => { n with parent := q }⟩ x =
      if id = x then q else parent? ⟨nodes⟩ x := by
  rw [parent?, node?_modify]
  split
  · rename_i hx
    obtain ⟨node, hn⟩ := contains_iff.mp h
    simp [← hx, hn]
  · rfl

theorem children_modify_children {nodes : SlotMap Node} {f : Node → Node}
    {g : List NodeId → List NodeId} (hf : ∀ n, (f n).children = g n.children)
    (h : contains ⟨nodes⟩ p = true) :
    children ⟨nodes.modify p f⟩ x =
      if p = x then g (children ⟨nodes⟩ x) else children ⟨nodes⟩ x := by
  rw [children_eq, node?_modify, children_eq]
  split
  · rename_i hx
    obtain ⟨node, hn⟩ := contains_iff.mp h
    simp [← hx, hn, hf]
  · rfl

theorem contains_modify {nodes : SlotMap Node} {f : Node → Node} :
    contains ⟨nodes.modify id f⟩ x = contains ⟨nodes⟩ x := by
  have hx : contains ⟨nodes.modify id f⟩ x = (node? ⟨nodes.modify id f⟩ x).isSome := rfl
  rw [hx, node?_modify]
  split
  · rw [Option.isSome_map]
    rfl
  · rfl

theorem Linked.congr (h : d.Linked) (hv : d'.nodes.Valid) (hp : ∀ x, d'.parent? x = d.parent? x)
    (hc : ∀ x, d'.children x = d.children x) : d'.Linked where
  valid := hv
  listed hx := by
    rw [hc]
    exact h.listed ((hp _).symm.trans hx)
  parent hx := by
    rw [hp]
    rw [hc] at hx
    exact h.parent hx
  nodup p := by
    rw [hc]
    exact h.nodup p
  rooted := h.rooted.congr hp

theorem empty_linked : empty.Linked where
  valid := SlotMap.valid_empty
  listed hx := by simp [parent?, node?, empty] at hx
  parent hx := by simp [children, node?, empty] at hx
  nodup p := by simp [children, node?, empty]
  rooted x := ⟨[x], .root (by simp [parent?, node?, empty])⟩

theorem node?_create (h : d.nodes.Valid) (data : NodeData) :
    (d.create data).2.node? x =
      if x = (d.create data).1 then some ⟨data, none, []⟩ else d.node? x :=
  SlotMap.get?_insert h ⟨data, none, []⟩

theorem node?_create_key (h : d.nodes.Valid) (data : NodeData) :
    d.node? (d.create data).1 = none :=
  SlotMap.get?_insert_key h ⟨data, none, []⟩

theorem parent?_create (h : d.nodes.Valid) (data : NodeData) :
    (d.create data).2.parent? x = d.parent? x := by
  rw [parent?, node?_create h, parent?]
  split
  · rename_i hx
    simp [hx, node?_create_key h]
  · rfl

theorem children_create (h : d.nodes.Valid) (data : NodeData) :
    (d.create data).2.children x = d.children x := by
  rw [children_eq, node?_create h, children_eq]
  split
  · rename_i hx
    simp [hx, node?_create_key h]
  · rfl

theorem create_linked (h : d.Linked) (data : NodeData) : (d.create data).2.Linked :=
  h.congr (SlotMap.valid_insert h.valid _) (fun _ => parent?_create h.valid data)
    fun _ => children_create h.valid data

theorem modifyElement_linked (h : d.Linked) {f : Element → Element} :
    (d.modifyElement id f).Linked := by
  refine h.congr (SlotMap.valid_modify h.valid) (fun x => parent?_modify fun n => ?_)
    fun x => children_modify fun n => ?_
  · cases n.data <;> rfl
  · cases n.data <;> rfl

theorem parent?_detach : (d.detach id).parent? x = if id = x then none else d.parent? x := by
  unfold detach
  cases hp : d.parent? id with
  | none =>
      simp only
      split
      · rename_i hx
        exact hx ▸ hp
      · rfl
  | some p =>
      have hid : contains ⟨d.nodes.modify p (Node.dropChild id)⟩ id = true :=
        contains_modify.trans (contains_of_parent? hp)
      simp only
      rw [parent?_modify_parent hid, parent?_modify (f := Node.dropChild id) fun _ => rfl]

theorem children_detach (h : d.Linked) : (d.detach id).children p = (d.children p).erase id := by
  have off (hp : d.parent? id ≠ some p) : (d.children p).erase id = d.children p :=
    List.erase_of_not_mem fun hmem => hp (h.parent hmem)
  unfold detach
  cases hq : d.parent? id with
  | none => exact (off (by simp [hq])).symm
  | some q =>
      simp only
      rw [children_modify (f := fun n => { n with parent := none }) fun _ => rfl,
        children_modify_children (f := Node.dropChild id) (g := fun l => l.erase id)
          (fun _ => rfl) (h.contains_parent hq)]
      split
      · rfl
      · rename_i hne
        exact (off (by simpa [hq] using hne)).symm

@[simp] theorem contains_detach : (d.detach id).contains x = d.contains x := by
  unfold detach
  cases d.parent? id with
  | none => rfl
  | some p => exact contains_modify.trans contains_modify

theorem detach_valid (h : d.nodes.Valid) : (d.detach id).nodes.Valid := by
  unfold detach
  cases d.parent? id with
  | none => exact h
  | some p => exact SlotMap.valid_modify (SlotMap.valid_modify h)

theorem detach_linked (h : d.Linked) (id : NodeId) : (d.detach id).Linked where
  valid := detach_valid h.valid
  listed {x p} hx := by
    rw [parent?_detach] at hx
    rw [children_detach h]
    split at hx
    · simp at hx
    · rename_i hne
      exact (List.mem_erase_of_ne (Ne.symm hne)).mpr (h.listed hx)
  parent {x p} hx := by
    rw [children_detach h, (h.nodup p).mem_erase_iff] at hx
    rw [parent?_detach, if_neg (Ne.symm hx.1)]
    exact h.parent hx.2
  nodup p := by
    rw [children_detach h]
    exact (h.nodup p).erase id
  rooted := h.rooted.unlink fun x => by
    rw [parent?_detach]
    split
    · exact .inr rfl
    · exact .inl rfl

end CssStyling.Document
