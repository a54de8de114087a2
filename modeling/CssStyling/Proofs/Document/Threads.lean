import CssStyling.Document.Threads
import CssStyling.Proofs.Document.Order
import CssStyling.Proofs.Document.Splicing

namespace CssStyling

namespace Document

def data? (d : Document) (x : NodeId) : Option NodeData :=
  (d.node? x).map (·.data)

def thread (d : Document) (x : NodeId) (data : NodeData) : ThreadedNode :=
  ⟨data, d.parent? x, d.firstChild? x, d.lastChild? x, d.previousSibling? x, d.nextSibling? x⟩

variable {d d' : Document} {x id parent child : NodeId} {before : Option NodeId}

theorem parent?_of_stale (h : d.node? x = none) : d.parent? x = none := by
  simp [parent?, h]

theorem children_of_stale (h : d.node? x = none) : d.children x = [] := by
  simp [children, h]

theorem siblings_of_stale (h : d.node? x = none) : d.siblings x = [] :=
  siblings_of_root (parent?_of_stale h)

theorem thread_of_stale {data : NodeData} (h : d.node? x = none) :
    d.thread x data = ⟨data, none, none, none, none, none⟩ := by
  simp only [thread, parent?_of_stale h, firstChild?, lastChild?, children_of_stale h,
    previousSibling?_eq, nextSibling?_eq, siblings_of_stale h]
  rfl

theorem thread_congr (hp : d'.parent? x = d.parent? x) (hc : d'.children x = d.children x)
    (hs : ∀ p, d.parent? x = some p → d'.children p = d.children p) :
    d'.thread x = d.thread x := by
  have hsib : d'.siblings x = d.siblings x := by
    unfold siblings
    rw [hp]
    cases h : d.parent? x with
    | none => rfl
    | some p => exact hs p h
  funext data
  simp only [thread, hp, firstChild?, lastChild?, hc, previousSibling?_eq, nextSibling?_eq, hsib]

theorem data?_modify {nodes : SlotMap Node} {f : Node → Node} (hf : ∀ n, (f n).data = n.data) :
    data? ⟨nodes.modify id f⟩ x = data? ⟨nodes⟩ x := by
  rw [data?, node?_modify, data?]
  split
  · rw [Option.map_map]
    congr 1
    funext n
    exact hf n
  · rfl

theorem data?_detach : (d.detach id).data? x = d.data? x := by
  unfold detach
  cases d.parent? id with
  | none => rfl
  | some p =>
      simp only
      rw [data?_modify (f := fun n => { n with parent := none }) fun _ => rfl,
        data?_modify (f := Node.dropChild id) fun _ => rfl]

theorem data?_link : (d.link parent child before).data? x = d.data? x := by
  unfold link
  rw [data?_modify (f := fun n => { n with parent := some parent }) fun _ => rfl,
    data?_modify (f := Node.putChild child before) fun _ => rfl]

theorem shape_link : (d.link parent child before).nodes.shape = d.nodes.shape :=
  SlotMap.shape_modify.trans SlotMap.shape_modify

theorem shape_detach : (d.detach id).nodes.shape = d.nodes.shape := by
  unfold detach
  cases d.parent? id with
  | none => rfl
  | some p => exact SlotMap.shape_modify.trans SlotMap.shape_modify

end Document

namespace ThreadedDocument

variable {t : ThreadedDocument} {id x parent : NodeId} {f : ThreadedNode → ThreadedNode}
  {previous next : Option NodeId}

def links (t : ThreadedDocument) : Links where
  contains := t.contains
  parent? := t.parent?
  firstChild? := t.firstChild?
  lastChild? := t.lastChild?
  previous? := t.previous?
  next? := t.next?

theorem node?_modify : (t.modify id f).node? x =
    (t.node? x).map fun n => if id = x then f n else n := by
  have hget : (t.modify id f).node? x = if id = x then (t.node? x).map f else t.node? x :=
    SlotMap.get?_modify
  rw [hget]
  split
  · rfl
  · simp

theorem node?_putNext : (t.putNext parent previous next).node? x = (t.node? x).map fun n =>
    { n with
      next := if previous = some x then next else n.next
      firstChild := if previous = none ∧ parent = x then next else n.firstChild } := by
  unfold putNext
  cases previous with
  | none =>
      rw [node?_modify]
      congr 1
      funext n
      by_cases hx : parent = x <;> simp [hx]
  | some p =>
      rw [node?_modify]
      congr 1
      funext n
      by_cases hx : p = x <;> simp [hx]

theorem node?_putPrevious : (t.putPrevious parent previous next).node? x =
    (t.node? x).map fun n =>
      { n with
        previous := if next = some x then previous else n.previous
        lastChild := if next = none ∧ parent = x then previous else n.lastChild } := by
  unfold putPrevious
  cases next with
  | none =>
      rw [node?_modify]
      congr 1
      funext n
      by_cases hx : parent = x <;> simp [hx]
  | some c =>
      rw [node?_modify]
      congr 1
      funext n
      by_cases hx : c = x <;> simp [hx]

theorem shape_putNext : (t.putNext parent previous next).nodes.shape = t.nodes.shape := by
  unfold putNext
  cases previous <;> exact SlotMap.shape_modify

theorem shape_putPrevious : (t.putPrevious parent previous next).nodes.shape = t.nodes.shape := by
  unfold putPrevious
  cases next <;> exact SlotMap.shape_modify

end ThreadedDocument

/-- The same nodes, each with the links of its place. -/
structure Threads (t : ThreadedDocument) (d : Document) : Prop where
  shape : t.nodes.shape = d.nodes.shape
  node (x : NodeId) : t.node? x = (d.data? x).map (d.thread x)

namespace Threads

open ThreadedDocument

variable {t : ThreadedDocument} {d : Document} {id x parent child : NodeId}
  {before : Option NodeId} {l : List NodeId}

theorem contains (h : Threads t d) : t.contains x = d.contains x := by
  rw [ThreadedDocument.contains, ← SlotMap.contains_shape, h.shape, SlotMap.contains_shape]
  rfl

theorem height (h : Threads t d) : t.height = d.height := by
  have hsize := congrArg (fun m => m.slots.size) h.shape
  simp only [SlotMap.shape, Array.size_map] at hsize
  exact hsize

theorem read (h : Threads t d) {f : ThreadedNode → Option NodeId} {g : NodeId → Option NodeId}
    (hg : ∀ data, f (d.thread x data) = g x) (hn : d.node? x = none → g x = none) :
    (t.node? x).bind f = g x := by
  rw [h.node, Document.data?]
  cases hx : d.node? x with
  | none => exact (hn hx).symm
  | some n => exact hg n.data

theorem parent? (h : Threads t d) : t.parent? x = d.parent? x :=
  h.read (fun _ => rfl) Document.parent?_of_stale

theorem firstChild? (h : Threads t d) : t.firstChild? x = d.firstChild? x :=
  h.read (fun _ => rfl) fun hx => by rw [Document.firstChild?, Document.children_of_stale hx]; rfl

theorem lastChild? (h : Threads t d) : t.lastChild? x = d.lastChild? x :=
  h.read (fun _ => rfl) fun hx => by rw [Document.lastChild?, Document.children_of_stale hx]; rfl

theorem previous? (h : Threads t d) : t.previous? x = d.previousSibling? x :=
  h.read (fun _ => rfl) fun hx => by
    rw [Document.previousSibling?_eq, Document.siblings_of_stale hx]
    rfl

theorem next? (h : Threads t d) : t.next? x = d.nextSibling? x :=
  h.read (fun _ => rfl) fun hx => by
    rw [Document.nextSibling?_eq, Document.siblings_of_stale hx]
    rfl

theorem links (h : Threads t d) : t.links = d.links := by
  simp only [ThreadedDocument.links, Document.links, Links.mk.injEq]
  exact ⟨funext fun _ => h.contains, funext fun _ => h.parent?, funext fun _ => h.firstChild?,
    funext fun _ => h.lastChild?, funext fun _ => h.previous?, funext fun _ => h.next?⟩

theorem empty : Threads .empty .empty where
  shape := by simp [ThreadedDocument.empty, Document.empty, SlotMap.shape, SlotMap.empty]
  node x := by
    simp [ThreadedDocument.node?, ThreadedDocument.empty, Document.data?, Document.node?,
      Document.empty]

theorem create (h : Threads t d) (hd : d.Linked) (data : NodeData) :
    (t.create data).1 = (d.create data).1 ∧ Threads (t.create data).2 (d.create data).2 := by
  have valid : t.nodes.Valid := by
    rw [← SlotMap.valid_shape, h.shape, SlotMap.valid_shape]
    exact hd.valid
  have threaded := SlotMap.shape_insert t.nodes ⟨data, none, none, none, none, none⟩
  have plain := SlotMap.shape_insert d.nodes ⟨data, none, []⟩
  rw [h.shape, plain] at threaded
  obtain ⟨key, shape⟩ := Prod.mk.inj threaded
  refine ⟨key.symm, shape.symm, fun x => ?_⟩
  have hnode : (t.create data).2.node? x = if x = (t.create data).1 then
      some ⟨data, none, none, none, none, none⟩ else t.node? x := SlotMap.get?_insert valid _
  have hthread : (d.create data).2.thread x = d.thread x :=
    Document.thread_congr (Document.parent?_create hd.valid data)
      (Document.children_create hd.valid data) fun _ _ => Document.children_create hd.valid data
  have hkey : (t.create data).1 = (d.create data).1 := key.symm
  rw [hnode, hthread, Document.data?, Document.node?_create hd.valid, hkey]
  split
  · rename_i hx
    rw [Option.map_some, Option.map_some, hx,
      Document.thread_of_stale (Document.node?_create_key hd.valid data)]
  · exact h.node x

theorem detach (h : Threads t d) (hd : d.Linked) (id : NodeId) :
    Threads (t.detach id) (d.detach id) := by
  cases hp : d.parent? id with
  | none =>
      have ht : t.detach id = t := by rw [ThreadedDocument.detach, h.parent?, hp]
      have hd : d.detach id = d := by rw [Document.detach, hp]
      rwa [ht, hd]
  | some p =>
      obtain ⟨a, b, hc⟩ := hd.exists_siblings hp
      have spliced := Document.spliced_detach hd hc
      obtain ⟨hprev, hnext⟩ := hd.neighbors hc
      rw [ThreadedDocument.detach, h.parent?, hp, h.previous?, h.next?, hprev, hnext]
      refine ⟨?_, fun x => ?_⟩
      · rw [Document.shape_detach, ← h.shape]
        exact SlotMap.shape_modify.trans (shape_putPrevious.trans shape_putNext)
      · rw [node?_modify, node?_putPrevious, node?_putNext, h.node, Document.data?_detach,
          Option.map_map, Option.map_map, Option.map_map]
        congr 1
        funext data
        simp only [Function.comp_apply, Document.thread, spliced.parent_without,
          spliced.first_without, spliced.last_without, spliced.previous_without,
          spliced.next_without]
        split <;> rfl

theorem ancestorsWithin (h : Threads t d) (n : Nat) :
    t.ancestorsWithin n x = d.ancestorsWithin n x := by
  induction n generalizing x with
  | zero => rfl
  | succ n ih =>
      rw [ThreadedDocument.ancestorsWithin, Document.ancestorsWithin, h.parent?]
      cases d.parent? x with
      | none => rfl
      | some p => exact congrArg (p :: ·) ih

theorem isInclusiveAncestor (h : Threads t d) :
    t.isInclusiveAncestor id x = d.isInclusiveAncestor id x := by
  rw [ThreadedDocument.isInclusiveAncestor, h.ancestorsWithin, h.height]
  rfl

theorem canInsert (h : Threads t d) :
    t.canInsert parent child before = d.canInsert parent child before := by
  unfold ThreadedDocument.canInsert Document.canInsert
  rw [h.contains, h.contains, h.isInclusiveAncestor]
  cases before with
  | none => rfl
  | some r =>
      simp only
      rw [h.parent?]

theorem lastBefore (h : Threads t d) (hd : d.Linked)
    (hb : ∀ r, before = some r → r ∈ d.children parent) :
    t.lastBefore parent before =
      ((d.children parent).takeWhile fun y => some y != before).getLast? := by
  have next := Document.head?_dropWhile hb
  have whole := List.takeWhile_append_dropWhile (p := fun y => some y != before)
    (l := d.children parent)
  generalize (d.children parent).takeWhile _ = a at whole ⊢
  generalize (d.children parent).dropWhile _ = b at whole next
  cases before with
  | none =>
      obtain rfl := List.head?_eq_none_iff.mp next
      refine h.lastChild?.trans ?_
      rw [Document.lastChild?, ← whole, List.append_nil]
  | some r =>
      obtain ⟨b, rfl⟩ := List.head?_eq_some_iff.mp next
      exact h.previous?.trans (hd.neighbors whole.symm).1

theorem link (h : Threads t d) (hd : d.Linked) (hp : d.contains parent = true)
    (hc : d.contains child = true) (hroot : d.parent? child = none)
    (hanc : ∀ l, Lineage d.parent? parent l → child ∉ l)
    (hb : ∀ r, before = some r → r ∈ d.children parent) :
    Threads (t.link parent child before) (d.link parent child before) := by
  have spliced : Document.Spliced d (d.link parent child before) parent child _ _ :=
    Document.spliced_link hd hp hc hroot hanc
  have next := Document.head?_dropWhile hb
  rw [ThreadedDocument.link, h.lastBefore hd hb]
  refine ⟨?_, fun x => ?_⟩
  · rw [Document.shape_link, ← h.shape]
    exact shape_putPrevious.trans (shape_putNext.trans SlotMap.shape_modify)
  · rw [node?_putPrevious, node?_putNext, node?_modify, h.node, Document.data?_link,
      Option.map_map, Option.map_map, Option.map_map]
    congr 1
    funext data
    simp only [Function.comp_apply, Document.thread, spliced.parent, spliced.first, spliced.last,
      spliced.previous, spliced.next, next]
    split <;> rfl

theorem insertBefore (h : Threads t d) (hd : d.Linked) (parent child : NodeId)
    (before : Option NodeId) :
    (t.insertBefore parent child before).1 = (d.insertBefore parent child before).1 ∧
      Threads (t.insertBefore parent child before).2 (d.insertBefore parent child before).2 := by
  rw [ThreadedDocument.insertBefore, Document.insertBefore, h.canInsert]
  split
  · rename_i hcan
    obtain ⟨hp, hc, hanc, hb⟩ := Document.detached_of_canInsert hd hcan
    have hroot : (d.detach child).parent? child = none := by
      rw [Document.parent?_detach, if_pos rfl]
    exact ⟨rfl, (h.detach hd child).link (Document.detach_linked hd child) hp hc hroot hanc hb⟩
  · exact ⟨rfl, h⟩

end Threads

end CssStyling
