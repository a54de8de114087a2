import CssStyling.Proofs.Document.Threads

namespace CssStyling

namespace Document

variable {d : Document} {x id : NodeId} {l known : List NodeId} {n : Nat}

theorem descendantsWithin_succ (h : d.Linked) (hx : Lineage d.parent? x l)
    (hn : d.height ≤ n + l.length) :
    d.descendantsWithin (n + 1) x = d.descendantsWithin n x := by
  induction n generalizing x l with
  | zero =>
      have leaf : d.children x = [] := by
        rw [List.eq_nil_iff_forall_not_mem]
        intro c hc
        have hle := h.lineage_le (h.contains_child hc) (.step (h.parent hc) hx)
        rw [List.length_cons] at hle
        omega
      simp only [descendantsWithin, leaf, List.flatMap_nil]
  | succ n ih =>
      rw [descendantsWithin, descendantsWithin, List.flatMap_congr]
      intro c hc
      have deeper : d.height ≤ n + (c :: l).length := by
        rw [List.length_cons]
        omega
      rw [ih (.step (h.parent hc) hx) deeper]

theorem Linked.descendants_eq (h : d.Linked) (x : NodeId) :
    d.descendants x = (d.children x).flatMap d.subtree := by
  obtain ⟨l, hl⟩ := h.rooted x
  exact (descendantsWithin_succ h hl (Nat.le_add_right _ _)).symm

theorem TopDown.contains (h : TopDown d known l) (hx : x ∈ l) : d.contains x = true := by
  induction h with
  | nil => simp at hx
  | cons hp _ _ ih =>
      rcases List.mem_cons.mp hx with rfl | hx
      · exact contains_of_parent? hp
      · exact ih hx

theorem Linked.length_descendants_le (h : d.Linked) (x : NodeId) :
    (d.descendants x).length ≤ d.height :=
  length_le_height (List.nodup_cons.mp (h.nodup_subtree x)).2
    fun _ => (h.topDown_descendants x).contains

theorem Linked.length_children_le (h : d.Linked) (x : NodeId) :
    (d.children x).length ≤ d.height :=
  length_le_height (h.nodup x) fun _ => h.contains_child

theorem height_detach : (d.detach id).height = d.height := by
  have shape : (d.detach id).nodes.shape = d.nodes.shape := shape_detach
  have hsize := congrArg (fun m => m.slots.size) shape
  simp only [SlotMap.shape, Array.size_map] at hsize
  exact hsize

theorem descendantsWithin_detach (h : d.Linked) (hx : Lineage d.parent? x l) (hid : id ∈ l) :
    (d.detach id).descendantsWithin n x = d.descendantsWithin n x := by
  induction n generalizing x l with
  | zero => rfl
  | succ n ih =>
      have kept : id ∉ d.children x := by
        intro hmem
        have hnodup := (Lineage.step (h.parent hmem) hx).nodup
        exact (List.nodup_cons.mp hnodup).1 hid
      rw [descendantsWithin, descendantsWithin, children_detach h, List.erase_of_not_mem kept,
        List.flatMap_congr]
      intro c hc
      rw [ih (.step (h.parent hc) hx) (List.mem_cons_of_mem c hid)]

theorem subtree_detach (h : d.Linked) (id : NodeId) :
    (d.detach id).subtree id = d.subtree id := by
  obtain ⟨l, hl⟩ := h.rooted id
  rw [subtree, descendants, height_detach, descendantsWithin_detach h hl hl.mem_self]
  rfl

end Document

namespace Threads

open ThreadedDocument

variable {t : ThreadedDocument} {d : Document} {x : NodeId} {l freed stack : List NodeId} {n : Nat}

theorem onwards_of_walk {o : Option NodeId} (h : t.links.Walk o l) (hn : l.length ≤ n) :
    t.onwards n o = l := by
  induction h generalizing n with
  | done => cases n <;> rfl
  | @step x l _ ih =>
      obtain ⟨n, rfl⟩ : ∃ m, n = m + 1 := Nat.exists_eq_add_of_le' (Nat.le_trans (by simp) hn)
      exact congrArg (x :: ·) (ih (Nat.le_of_succ_le_succ hn))

theorem children (h : Threads t d) (hd : d.Linked) : t.children x = d.children x := by
  have walk : t.links.Walk (t.firstChild? x) (d.children x) := by
    rw [h.links, h.firstChild?]
    exact hd.walk (List.nil_append _).symm
  refine onwards_of_walk walk ?_
  rw [h.height]
  exact hd.length_children_le x

theorem visit (h : Threads t d) (hd : d.Linked) (hn : (stack.flatMap d.subtree).length ≤ n) :
    t.visit n stack = stack.flatMap d.subtree := by
  induction n generalizing stack with
  | zero => exact (List.length_eq_zero_iff.mp (Nat.le_zero.mp hn)).symm
  | succ n ih =>
      cases stack with
      | nil => rfl
      | cons id stack =>
          have visited : (id :: stack).flatMap d.subtree =
              id :: (d.children id ++ stack).flatMap d.subtree := by
            rw [List.flatMap_cons, List.flatMap_append, ← hd.descendants_eq]
            rfl
          rw [visited, List.length_cons] at hn
          rw [visited, ThreadedDocument.visit, h.children hd, ih (Nat.le_of_succ_le_succ hn)]

theorem descendants (h : Threads t d) (hd : d.Linked) (x : NodeId) :
    t.descendants x = d.descendants x := by
  rw [ThreadedDocument.descendants, h.children hd, h.height, hd.descendants_eq]
  refine h.visit hd ?_
  rw [← hd.descendants_eq]
  exact hd.length_descendants_le x

theorem foldl_erase (h : Threads t d)
    (hp : ∀ x p, d.parent? x = some p → (x ∈ freed ↔ p ∈ freed)) :
    Threads ⟨freed.foldl SlotMap.erase t.nodes⟩ ⟨freed.foldl SlotMap.erase d.nodes⟩ where
  shape := by rw [SlotMap.shape_foldl_erase, SlotMap.shape_foldl_erase, h.shape]
  node x := by
    have hnode : ThreadedDocument.node? ⟨freed.foldl SlotMap.erase t.nodes⟩ x =
        if x ∈ freed then none else t.node? x := SlotMap.get?_foldl_erase freed t.nodes
    rw [hnode, Document.data?, Document.node?_foldl_erase]
    split
    · rfl
    · rename_i hx
      have hthread : Document.thread ⟨freed.foldl SlotMap.erase d.nodes⟩ x = d.thread x := by
        refine Document.thread_congr ?_ ?_ fun p hxp => ?_
        · rw [Document.parent?_foldl_erase, if_neg hx]
        · rw [Document.children_foldl_erase, if_neg hx]
        · rw [Document.children_foldl_erase, if_neg fun hmem => hx ((hp x p hxp).mpr hmem)]
      rw [hthread]
      exact h.node x

theorem removeSubtree (h : Threads t d) (hd : d.Linked) (id : NodeId) :
    (t.removeSubtree id).1 = (d.removeSubtree id).1 ∧
      Threads (t.removeSubtree id).2 (d.removeSubtree id).2 := by
  have detached := h.detach hd id
  have freed : id :: (t.detach id).descendants id = d.subtree id := by
    rw [detached.descendants (Document.detach_linked hd id), ← Document.subtree_detach hd]
    rfl
  unfold ThreadedDocument.removeSubtree Document.removeSubtree
  rw [h.contains]
  split
  · simp only [freed, true_and]
    exact detached.foldl_erase fun x p => Document.mem_subtree_of_parent_detach hd
  · exact ⟨rfl, h⟩

end Threads

inductive Edit where
  | create (data : NodeData)
  | append (parent child : NodeId)
  | insertBefore (parent child : NodeId) (before : Option NodeId)
  | detach (id : NodeId)
  | removeSubtree (id : NodeId)

inductive EditAnswer where
  | created (id : NodeId)
  | moved (done : Bool)
  | detached
  | freed (ids : List NodeId)

namespace Document

def edit (d : Document) : Edit → EditAnswer × Document
  | .create data => (d.create data).map .created id
  | .append parent child => (d.append parent child).map .moved id
  | .insertBefore parent child before => (d.insertBefore parent child before).map .moved id
  | .detach node => (.detached, d.detach node)
  | .removeSubtree node => (d.removeSubtree node).map .freed id

def run (edits : List Edit) : Document :=
  edits.foldl (fun d e => (d.edit e).2) empty

variable {d : Document}

theorem edit_linked (h : d.Linked) (e : Edit) : (d.edit e).2.Linked := by
  cases e with
  | create data => exact create_linked h data
  | append parent child => exact insertBefore_linked h parent child none
  | insertBefore parent child before => exact insertBefore_linked h parent child before
  | detach node => exact detach_linked h node
  | removeSubtree node => exact removeSubtree_linked h node

end Document

namespace ThreadedDocument

def edit (t : ThreadedDocument) : Edit → EditAnswer × ThreadedDocument
  | .create data => (t.create data).map .created id
  | .append parent child => (t.append parent child).map .moved id
  | .insertBefore parent child before => (t.insertBefore parent child before).map .moved id
  | .detach node => (.detached, t.detach node)
  | .removeSubtree node => (t.removeSubtree node).map .freed id

def run (edits : List Edit) : ThreadedDocument :=
  edits.foldl (fun t e => (t.edit e).2) empty

end ThreadedDocument

namespace Threads

variable {t : ThreadedDocument} {d : Document}

theorem edit (h : Threads t d) (hd : d.Linked) (e : Edit) :
    (t.edit e).1 = (d.edit e).1 ∧ Threads (t.edit e).2 (d.edit e).2 := by
  cases e with
  | create data => exact (h.create hd data).imp_left (congrArg EditAnswer.created)
  | append parent child =>
      exact (h.insertBefore hd parent child none).imp_left (congrArg EditAnswer.moved)
  | insertBefore parent child before =>
      exact (h.insertBefore hd parent child before).imp_left (congrArg EditAnswer.moved)
  | detach node => exact ⟨rfl, h.detach hd node⟩
  | removeSubtree node =>
      exact (h.removeSubtree hd node).imp_left (congrArg EditAnswer.freed)

theorem foldl_edit (h : Threads t d) (hd : d.Linked) (edits : List Edit) :
    Threads (edits.foldl (fun t e => (t.edit e).2) t) (edits.foldl (fun d e => (d.edit e).2) d) ∧
      (edits.foldl (fun d e => (d.edit e).2) d).Linked := by
  induction edits generalizing t d with
  | nil => exact ⟨h, hd⟩
  | cons e edits ih => exact ih (h.edit hd e).2 (Document.edit_linked hd e)

end Threads

theorem ThreadedDocument.run_orderedForest (edits : List Edit) :
    (run edits).links.OrderedForest ∧ (run edits).links = (Document.run edits).links ∧
      ∀ e, ((run edits).edit e).1 = ((Document.run edits).edit e).1 := by
  obtain ⟨threads, linked⟩ := Threads.empty.foldl_edit Document.empty_linked edits
  have links := threads.links
  refine ⟨?_, links, fun e => (threads.edit linked e).1⟩
  exact links ▸ linked.orderedForest

end CssStyling
