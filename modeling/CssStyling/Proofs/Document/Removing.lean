import CssStyling.Proofs.Document.Inserting
import CssStyling.Proofs.SlotMap.Generations

namespace CssStyling

namespace Outline

structure Lists (o : Outline) (id : NodeId) : Prop where
  below (x : NodeId) :
    x ∈ o.descendants id ↔ Relation.TransGen (fun c p => o.parent? c = some p) x id
  once : (o.descendants id).Nodup
  order : o.descendants id = (o.children id).flatMap fun c => c :: o.descendants c

structure Removed (o o' : Outline) (id : NodeId) : Prop where
  gone {x : NodeId} : x ∈ id :: o.descendants id → o'.data? x = none
  data {x : NodeId} : x ∉ id :: o.descendants id → o'.data? x = o.data? x
  parent {x : NodeId} : x ∉ id :: o.descendants id → o'.parent? x = o.parent? x
  left {q : NodeId} : o.parent? id = some q →
    ∃ pre post, o.children q = pre ++ id :: post ∧ o'.children q = pre ++ post
  others {q : NodeId} : q ∉ id :: o.descendants id → o.parent? id ≠ some q →
    o'.children q = o.children q

end Outline

namespace Document

variable {d : Document} {x q id : NodeId}

theorem Linked.mem_descendants_iff (h : d.Linked) : x ∈ d.descendants id ↔
    Relation.TransGen (fun c p => d.parent? c = some p) x id := by
  obtain ⟨l, hl⟩ := h.rooted x
  have inclusive : x ∈ d.subtree id ↔
      Relation.ReflTransGen (fun c p => d.parent? c = some p) x id := by
    rw [h.mem_subtree_iff hl, hl.mem_iff_above]
  constructor
  · intro hx
    have hne : id ≠ x := fun heq => (List.nodup_cons.mp (h.nodup_subtree id)).1 (heq ▸ hx)
    have above := inclusive.mp (List.mem_cons_of_mem id hx)
    exact (Relation.reflTransGen_iff_eq_or_transGen.mp above).resolve_left hne
  · intro hx
    refine (List.mem_cons.mp (inclusive.mpr hx.to_reflTransGen)).resolve_left ?_
    rintro rfl
    exact h.rooted.acyclic x hx

theorem Linked.lists (h : d.Linked) (id : NodeId) : d.outline.Lists id where
  below _ := h.mem_descendants_iff
  once := (List.nodup_cons.mp (h.nodup_subtree id)).2
  order := h.descendants_eq id

theorem removeSubtree_of_contains (hid : d.contains id = true) : d.removeSubtree id =
    (d.subtree id, ⟨(d.subtree id).foldl SlotMap.erase (d.detach id).nodes⟩) := by
  rw [removeSubtree, if_pos hid]

theorem removeSubtree_of_stale (hid : d.contains id = false) : d.removeSubtree id = ([], d) := by
  rw [removeSubtree, if_neg (by simp [hid])]

theorem data?_foldl_erase {nodes : SlotMap Node} (freed : List NodeId) :
    data? ⟨freed.foldl SlotMap.erase nodes⟩ x =
      if x ∈ freed then none else data? ⟨nodes⟩ x := by
  rw [data?, node?_foldl_erase]
  split <;> rfl

theorem Linked.removed (h : d.Linked) (hid : d.contains id = true) :
    d.outline.Removed (d.removeSubtree id).2.outline id := by
  rw [removeSubtree_of_contains hid]
  have top : id ∈ d.subtree id := List.mem_cons_self
  have rest {q : NodeId} (hq : q ∉ d.subtree id) :
      children ⟨(d.subtree id).foldl SlotMap.erase (d.detach id).nodes⟩ q =
        (d.children q).erase id := by
    rw [children_foldl_erase, if_neg hq, children_detach h]
  refine ⟨fun {x} hx => ?gone, fun {x} hx => ?data, fun {x} hx => ?parent, fun {q} hq => ?left,
    fun {q} hq hne => ?others⟩
  case gone => exact (data?_foldl_erase _).trans (if_pos hx)
  case data => exact ((data?_foldl_erase _).trans (if_neg hx)).trans data?_detach
  case parent =>
    have hne : id ≠ x := fun heq => hx (heq ▸ top)
    exact ((parent?_foldl_erase _).trans (if_neg hx)).trans (parent?_detach.trans (if_neg hne))
  case left =>
    obtain ⟨pre, post, hsplit, herase⟩ := h.erase_child hq
    exact ⟨pre, post, hsplit, (rest (h.parent_not_mem_subtree hq)).trans herase⟩
  case others =>
    exact (rest hq).trans (List.erase_of_not_mem fun hmem => hne (h.parent hmem))

theorem Linked.contains_subtree (h : d.Linked) (hid : d.contains id = true)
    (hx : x ∈ d.subtree id) : d.contains x = true := by
  rcases List.mem_cons.mp hx with rfl | hx
  · exact hid
  · exact (h.topDown_descendants id).contains hx

end Document

namespace EditAnswer

def gone : EditAnswer → List NodeId
  | freed ids => ids
  | _ => []

end EditAnswer

namespace Document

variable {d : Document} {id : NodeId}

theorem insertBefore_emptied (parent child : NodeId) (before : Option NodeId) :
    d.nodes.Emptied (d.insertBefore parent child before).2.nodes [] := by
  unfold insertBefore
  split
  · exact .of_shape (shape_link.trans shape_detach)
  · exact .of_shape rfl

theorem removeSubtree_emptied (h : d.Linked) (id : NodeId) :
    d.nodes.Emptied (d.removeSubtree id).2.nodes ((d.removeSubtree id).1.map (·.slot)) := by
  cases hid : d.contains id with
  | false =>
      rw [removeSubtree_of_stale hid]
      exact .of_shape rfl
  | true =>
      rw [removeSubtree_of_contains hid]
      have kept (x : NodeId) (hx : x ∈ d.subtree id) : (d.detach id).contains x = true :=
        contains_detach.trans (h.contains_subtree hid hx)
      exact (SlotMap.Emptied.of_shape shape_detach).trans (.foldl_erase (h.nodup_subtree id) kept)

theorem edit_emptied (h : d.Linked) (e : Edit) :
    d.nodes.Emptied (d.edit e).2.nodes ((d.edit e).1.gone.map (·.slot)) := by
  cases e with
  | create data => exact .insert d.nodes _
  | append parent child => exact insertBefore_emptied parent child none
  | insertBefore parent child before => exact insertBefore_emptied parent child before
  | detach node => exact .of_shape shape_detach
  | removeSubtree node => exact removeSubtree_emptied h node

end Document

namespace ThreadedDocument

def freed (t : ThreadedDocument) : Revision → List NodeId
  | .edit e => (t.edit e).1.gone
  | .modifyElement _ _ => []

def freedBy (t : ThreadedDocument) : List Revision → List NodeId
  | [] => []
  | r :: rs => t.freed r ++ (t.revise r).freedBy rs

end ThreadedDocument

namespace Threads

variable {t : ThreadedDocument} {d : Document} {id : NodeId}

theorem revise_emptied (h : Threads t d) (hd : d.Linked) (r : Revision) :
    t.nodes.Emptied (t.revise r).nodes ((t.freed r).map (·.slot)) := by
  have shape := (h.revise hd r).1.shape
  cases r with
  | edit e =>
      have answer : t.freed (.edit e) = (d.edit e).1.gone := congrArg EditAnswer.gone (h.edit hd e).1
      rw [answer]
      exact (Document.edit_emptied hd e).congr h.shape shape
  | modifyElement => exact .of_shape SlotMap.shape_modify

theorem foldl_emptied (h : Threads t d) (hd : d.Linked) (rs : List Revision) :
    t.nodes.Emptied (rs.foldl ThreadedDocument.revise t).nodes ((t.freedBy rs).map (·.slot)) := by
  induction rs generalizing t d with
  | nil => exact .of_shape rfl
  | cons r rs ih =>
      obtain ⟨threads, linked⟩ := h.revise hd r
      rw [ThreadedDocument.freedBy, List.map_append]
      exact (h.revise_emptied hd r).trans (ih threads linked)

theorem contains_later_iff (h : Threads t d) (hd : d.Linked) (r : Revision)
    (later : List Revision) {x : NodeId} (hold : t.contains x = true) :
    (later.foldl ThreadedDocument.revise (t.revise r)).contains x = true ↔
      (later.foldl ThreadedDocument.revise (t.revise r)).nodes.Filled x.slot ∧
        2 ^ 32 ∣ ((t.freedBy (r :: later)).map (·.slot)).count x.slot :=
  (h.foldl_emptied hd (r :: later)).contains_iff hold

theorem not_contains_later (h : Threads t d) (hd : d.Linked) (r : Revision)
    (later : List Revision) {x : NodeId} (hold : t.contains x = true) (hx : x ∈ t.freed r)
    (few : ((t.freedBy (r :: later)).map (·.slot)).count x.slot < 2 ^ 32) :
    (later.foldl ThreadedDocument.revise (t.revise r)).contains x = false := by
  have once : 0 < ((t.freedBy (r :: later)).map (·.slot)).count x.slot :=
    List.count_pos_iff.mpr (List.mem_map_of_mem (List.mem_append_left _ hx))
  rw [← Bool.not_eq_true]
  intro present
  have round := ((h.contains_later_iff hd r later hold).mp present).2
  exact Nat.not_dvd_of_pos_of_lt once few round

end Threads

namespace ThreadedDocument

theorem build_removeSubtree (revisions : List Revision) (id : NodeId) :
    let d := Document.build revisions
    let t := build revisions
    let freed := (t.removeSubtree id).1
    let t' := (t.removeSubtree id).2
    t.outline.Lists id ∧
      (t.contains id = true → freed = id :: t.descendants id ∧ t.outline.Removed t'.outline id ∧
        ∀ (later : List Revision) (x : NodeId), x ∈ freed →
          let t'' := later.foldl revise t'
          let times := ((freed ++ t'.freedBy later).map (·.slot)).count x.slot
          (t''.contains x = true ↔ t''.nodes.Filled x.slot ∧ 2 ^ 32 ∣ times) ∧
            (times < 2 ^ 32 → t''.contains x = false)) ∧
      (t.contains id = false → freed = [] ∧ t' = t) ∧
      (d.removeSubtree id).1 = freed ∧ d.outline = t.outline ∧
      (d.removeSubtree id).2.outline = t'.outline := by
  intro d t freed t'
  obtain ⟨threads, linked⟩ := Threads.build revisions
  obtain ⟨answer, threads'⟩ := threads.removeSubtree linked id
  have looks : t.outline = d.outline := threads.outline linked
  have looks' : t'.outline = (d.removeSubtree id).2.outline :=
    threads'.outline (Document.removeSubtree_linked linked id)
  have below : t.descendants id = d.descendants id := threads.descendants linked id
  have listed (hid : t.contains id = true) : freed = d.subtree id := by
    have live : d.contains id = true := threads.contains.symm.trans hid
    exact answer.trans (by rw [Document.removeSubtree_of_contains live])
  refine ⟨?lists, fun hid => ⟨?freed, ?removed, fun later x hx => ?later⟩, fun hid => ?stale,
    answer.symm, looks.symm, looks'.symm⟩
  case lists => exact looks ▸ linked.lists id
  case freed =>
    rw [listed hid, below]
    rfl
  case removed =>
    rw [looks, looks']
    exact linked.removed (threads.contains.symm.trans hid)
  case later =>
    have held : t.contains x = true :=
      threads.contains.trans
        (linked.contains_subtree (threads.contains.symm.trans hid) (listed hid ▸ hx))
    exact ⟨threads.contains_later_iff linked (.edit (.removeSubtree id)) later held,
      threads.not_contains_later linked (.edit (.removeSubtree id)) later held hx⟩
  case stale =>
    have unchanged : t.removeSubtree id = ([], t) := by rw [removeSubtree, if_neg (by simp [hid])]
    exact Prod.mk.inj unchanged

def vacant (generation : UInt32) : ThreadedDocument :=
  ⟨⟨#[⟨generation, none, none⟩], some 0, 0⟩⟩

def turns : UInt32 → Nat → List Revision
  | _, 0 => []
  | generation, n + 1 =>
      .edit (.create .document) :: .edit (.removeSubtree ⟨0, generation⟩) ::
        turns (generation + 1) n

theorem revise_turn (generation : UInt32) :
    ((vacant generation).revise (.edit (.create .document))).revise
      (.edit (.removeSubtree ⟨0, generation⟩)) = vacant (generation + 1) := by
  simp [vacant, revise, edit, create, removeSubtree, detach, descendants, visit, children, onwards,
    height, parent?, firstChild?, node?, contains, SlotMap.insert, SlotMap.erase, SlotMap.contains,
    SlotMap.get?]

theorem foldl_turns (generation : UInt32) (n : Nat) :
    (turns generation n).foldl revise (vacant generation) =
      vacant (generation + UInt32.ofNat n) := by
  induction n generalizing generation with
  | zero => simp [turns]
  | succ n ih =>
      rw [turns, List.foldl_cons, List.foldl_cons, revise_turn, ih, UInt32.ofNat_add,
        UInt32.add_comm (UInt32.ofNat n), UInt32.add_assoc]
      rfl

theorem contains_vacant_create (generation : UInt32) :
    ((vacant generation).revise (.edit (.create .document))).contains ⟨0, generation⟩ = true := by
  simp [vacant, revise, edit, create, SlotMap.insert, contains, SlotMap.contains, SlotMap.get?]

theorem removeSubtree_comes_round :
    let t := build [.edit (.create .document)]
    let t' := (t.removeSubtree ⟨0, 0⟩).2
    t.contains ⟨0, 0⟩ = true ∧ (t.removeSubtree ⟨0, 0⟩).1 = [⟨0, 0⟩] ∧
      ((turns 1 (2 ^ 32 - 1) ++ [Revision.edit (.create .document)]).foldl revise t').contains ⟨0, 0⟩ =
        true := by
  have emptied : ((build [.edit (.create .document)]).removeSubtree ⟨0, 0⟩).2 = vacant 1 := rfl
  have round : 1 + UInt32.ofNat (2 ^ 32 - 1) = 0 := rfl
  refine ⟨rfl, rfl, ?_⟩
  rw [emptied, List.foldl_concat, foldl_turns, round]
  exact contains_vacant_create 0

end ThreadedDocument

end CssStyling
