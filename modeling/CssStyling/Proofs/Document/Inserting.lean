import CssStyling.Proofs.Document.Visiting

namespace CssStyling

structure Outline where
  data? : NodeId → Option NodeData
  parent? : NodeId → Option NodeId
  children : NodeId → List NodeId
  descendants : NodeId → List NodeId

namespace Outline

structure Permits (o : Outline) (parent child : NodeId) (before : Option NodeId) : Prop where
  apart : ¬Relation.ReflTransGen (fun c p => o.parent? c = some p) parent child
  place {r : NodeId} : before = some r → r ∈ o.children parent ∧ r ≠ child
  parent : (o.data? parent).isSome = true
  child : (o.data? child).isSome = true

structure Placed (o o' : Outline) (parent child : NodeId) (before : Option NodeId) : Prop where
  joined : ∃ pre post, (o.children parent).erase child = pre ++ post ∧ post.head? = before ∧
    o'.children parent = pre ++ child :: post
  left {q : NodeId} : q ≠ parent → o.parent? child = some q →
    ∃ pre post, o.children q = pre ++ child :: post ∧ o'.children q = pre ++ post
  others {q : NodeId} : q ≠ parent → o.parent? child ≠ some q → o'.children q = o.children q
  parent (x : NodeId) : o'.parent? x = if child = x then some parent else o.parent? x
  data (x : NodeId) : o'.data? x = o.data? x
  below : o'.descendants child = o.descendants child
  within {x : NodeId} : x ∈ child :: o.descendants child → o'.children x = o.children x

end Outline

namespace Document

variable {d d' : Document} {x y q id parent child : NodeId} {before : Option NodeId}
  {l : List NodeId} {n : Nat} {f : Element → Element}

def outline (d : Document) : Outline :=
  ⟨d.data?, d.parent?, d.children, d.descendants⟩

theorem contains_eq_data : d.contains x = (d.data? x).isSome := by
  rw [data?, Option.isSome_map]
  rfl

theorem Linked.isInclusiveAncestor_iff_above (h : d.Linked) : d.isInclusiveAncestor y x = true ↔
    Relation.ReflTransGen (fun c p => d.parent? c = some p) x y := by
  obtain ⟨l, hl⟩ := h.rooted x
  rw [h.isInclusiveAncestor_iff hl, hl.mem_iff_above]

theorem Linked.canInsert_iff (h : d.Linked) : d.canInsert parent child before = true ↔
    d.outline.Permits parent child before := by
  have apart : (!d.isInclusiveAncestor child parent) = true ↔
      ¬Relation.ReflTransGen (fun c p => d.parent? c = some p) parent child := by
    rw [← h.isInclusiveAncestor_iff_above, Bool.not_eq_true', Bool.not_eq_true]
  have permits : d.outline.Permits parent child before ↔
      ((d.contains parent = true ∧ d.contains child = true) ∧
        (!d.isInclusiveAncestor child parent) = true) ∧
      ∀ r, before = some r → r ∈ d.children parent ∧ r ≠ child := by
    rw [apart, contains_eq_data, contains_eq_data]
    exact ⟨fun ⟨ha, hb, hp, hc⟩ => ⟨⟨⟨hp, hc⟩, ha⟩, fun _ => hb⟩,
      fun ⟨⟨⟨hp, hc⟩, ha⟩, hb⟩ => ⟨ha, fun {r} => hb r, hp, hc⟩⟩
  unfold canInsert
  rw [permits, Bool.and_eq_true, Bool.and_eq_true, Bool.and_eq_true]
  refine and_congr Iff.rfl ?_
  cases before with
  | none => simp
  | some r =>
      have listed : d.parent? r = some parent ↔ r ∈ d.children parent := ⟨h.listed, h.parent⟩
      simp [listed, and_comm]

theorem descendantsWithin_congr
    (h : ∀ y ∈ id :: d.descendantsWithin n id, d'.children y = d.children y) :
    d'.descendantsWithin n id = d.descendantsWithin n id := by
  induction n generalizing id with
  | zero => rfl
  | succ n ih =>
      rw [descendantsWithin, descendantsWithin, h id List.mem_cons_self]
      refine List.flatMap_congr fun c hc => congrArg (c :: ·) (ih fun y hy => h y ?_)
      rw [descendantsWithin]
      exact List.mem_cons_of_mem id (List.mem_flatMap.mpr ⟨c, hc, hy⟩)

theorem height_eq_of_shape (h : d'.nodes.shape = d.nodes.shape) : d'.height = d.height := by
  have hsize := congrArg (fun m => m.slots.size) h
  simp only [SlotMap.shape, Array.size_map] at hsize
  exact hsize

theorem Linked.parent_not_mem_subtree (h : d.Linked) (hq : d.parent? id = some q) :
    q ∉ d.subtree id := by
  obtain ⟨l, hl⟩ := h.rooted q
  intro hmem
  have longer : Lineage d.parent? id (id :: l) := .step hq hl
  exact (List.nodup_cons.mp longer.nodup).1 ((h.mem_subtree_iff hl).mp hmem)

theorem Linked.erase_child (h : d.Linked) (hq : d.parent? id = some q) :
    ∃ pre post, d.children q = pre ++ id :: post ∧ (d.children q).erase id = pre ++ post := by
  obtain ⟨pre, post, hsplit⟩ := h.exists_siblings hq
  have hnot := (not_mem_of_nodup (hsplit ▸ h.nodup q)).1
  refine ⟨pre, post, hsplit, ?_⟩
  rw [hsplit, List.erase_append_right _ hnot, List.erase_cons_head]

theorem Linked.ne_of_mem_subtree (h : d.Linked) (hperm : d.outline.Permits parent child before)
    (hx : x ∈ d.subtree child) : parent ≠ x ∧ d.parent? child ≠ some x := by
  obtain ⟨l, hl⟩ := h.rooted x
  have above := (h.mem_subtree_iff hl).mp hx
  constructor
  · rintro rfl
    exact hperm.apart (hl.mem_iff_above.mp above)
  · exact fun hpar => h.parent_not_mem_subtree hpar hx

theorem Linked.placed_of_children (h : d.Linked)
    (hperm : d.outline.Permits parent child before)
    (hchildren : ∀ x, d'.children x =
      if parent = x then ((d.children x).erase child).takeWhile (fun c => some c != before) ++
        child :: ((d.children x).erase child).dropWhile (fun c => some c != before)
      else (d.children x).erase child)
    (hparent : ∀ x, d'.parent? x = if child = x then some parent else d.parent? x)
    (hdata : ∀ x, d'.data? x = d.data? x) (hheight : d'.height = d.height) :
    d.outline.Placed d'.outline parent child before := by
  have place {r : NodeId} (hr : before = some r) : r ∈ (d.children parent).erase child := by
    obtain ⟨hmem, hne⟩ := hperm.place hr
    exact (List.mem_erase_of_ne hne).mpr hmem
  have elsewhere {q : NodeId} (hq : q ≠ parent) (hne : d.parent? child ≠ some q) :
      d'.children q = d.children q := by
    rw [hchildren, if_neg (Ne.symm hq), List.erase_of_not_mem fun hmem => hne (h.parent hmem)]
  have within {x : NodeId} (hx : x ∈ d.subtree child) : d'.children x = d.children x := by
    obtain ⟨hne, hpar⟩ := h.ne_of_mem_subtree hperm hx
    exact elsewhere (Ne.symm hne) hpar
  refine ⟨?joined, fun {q} hq hpar => ?left, elsewhere, hparent, hdata, ?below, within⟩
  case joined =>
    refine ⟨_, _, List.takeWhile_append_dropWhile.symm, head?_dropWhile fun r => place, ?_⟩
    exact (hchildren parent).trans (if_pos rfl)
  case left =>
    obtain ⟨pre, post, hsplit, herase⟩ := h.erase_child hpar
    have rest := (hchildren q).trans (if_neg (Ne.symm hq))
    exact ⟨pre, post, hsplit, rest.trans herase⟩
  case below =>
    change d'.descendantsWithin d'.height child = d.descendantsWithin d.height child
    rw [hheight]
    exact descendantsWithin_congr fun y => within

theorem Linked.moved_placed (h : d.Linked) (hperm : d.outline.Permits parent child before) :
    d.outline.Placed ((d.detach child).link parent child before).outline parent child before := by
  have hp : (d.detach child).contains parent = true :=
    contains_detach.trans (contains_eq_data.trans hperm.parent)
  have hc : (d.detach child).contains child = true :=
    contains_detach.trans (contains_eq_data.trans hperm.child)
  refine h.placed_of_children hperm (fun x => ?children) (fun x => ?parent)
    (fun x => data?_link.trans data?_detach) (height_eq_of_shape (shape_link.trans shape_detach))
  case children => rw [children_link_eq hp, children_detach h]
  case parent =>
    rw [parent?_link hc, parent?_detach]
    split <;> rfl

theorem Linked.insertBefore_spec (h : d.Linked) (parent child : NodeId) (before : Option NodeId) :
    ((d.insertBefore parent child before).1 = true ↔ d.outline.Permits parent child before) ∧
      ((d.insertBefore parent child before).1 = true →
        d.outline.Placed (d.insertBefore parent child before).2.outline parent child before) ∧
      ((d.insertBefore parent child before).1 = false →
        (d.insertBefore parent child before).2 = d) := by
  rw [← h.canInsert_iff, insertBefore]
  split
  · rename_i hcan
    exact ⟨by simp [hcan], fun _ => h.moved_placed (h.canInsert_iff.mp hcan), fun h => by cases h⟩
  · rename_i hcan
    exact ⟨by simp [hcan], fun h => absurd h Bool.false_ne_true, fun _ => rfl⟩

theorem node?_modifyElement : (d.modifyElement id f).node? x = (d.node? x).map fun n =>
    if id = x then { n with data := n.data.mapElement f } else n := by
  have mapped : d.modifyElement id f =
      ⟨d.nodes.modify id fun n => { n with data := n.data.mapElement f }⟩ := by
    rw [modifyElement]
    congr 2
    funext n
    obtain ⟨data, p, c⟩ := n
    cases data <;> rfl
  rw [mapped, node?_modify]
  split
  · rfl
  · exact Option.map_id'.symm

theorem data?_modifyElement : (d.modifyElement id f).data? x =
    (d.data? x).map fun data => if id = x then data.mapElement f else data := by
  rw [data?, node?_modifyElement, data?, Option.map_map, Option.map_map]
  congr 1
  funext n
  by_cases hx : id = x <;> simp [hx]

theorem thread_modifyElement : (d.modifyElement id f).thread x = d.thread x := by
  have links (y : NodeId) : (d.modifyElement id f).parent? y = d.parent? y ∧
      (d.modifyElement id f).children y = d.children y := by
    rw [parent?, children_eq, node?_modifyElement, parent?, children_eq]
    cases d.node? y with
    | none => exact ⟨rfl, rfl⟩
    | some n => by_cases hy : id = y <;> simp [hy]
  exact thread_congr (links x).1 (links x).2 fun p _ => (links p).2

end Document

namespace ThreadedDocument

def outline (t : ThreadedDocument) : Outline where
  data? id := (t.node? id).map (·.data)
  parent? := t.parent?
  children := t.children
  descendants := t.descendants

end ThreadedDocument

namespace Threads

variable {t : ThreadedDocument} {d : Document} {id : NodeId} {f : Element → Element}

theorem outline (h : Threads t d) (hd : d.Linked) : t.outline = d.outline := by
  have data (x : NodeId) : (t.node? x).map (·.data) = d.data? x := by
    rw [h.node, Option.map_map]
    exact Option.map_id'
  simp only [ThreadedDocument.outline, Document.outline, Outline.mk.injEq]
  exact ⟨funext data, funext fun _ => h.parent?, funext fun _ => h.children hd,
    funext (h.descendants hd)⟩

theorem modifyElement (h : Threads t d) :
    Threads (t.modifyElement id f) (d.modifyElement id f) where
  shape := SlotMap.shape_modify.trans (h.shape.trans SlotMap.shape_modify.symm)
  node x := by
    rw [ThreadedDocument.modifyElement, ThreadedDocument.node?_modify, h.node,
      Document.data?_modifyElement, Document.thread_modifyElement, Option.map_map, Option.map_map]
    congr 1
    funext data
    by_cases hx : id = x <;> simp [hx, Document.thread]

end Threads

inductive Revision where
  | edit (e : Edit)
  | modifyElement (id : NodeId) (f : Element → Element)

def Document.revise (d : Document) : Revision → Document
  | .edit e => (d.edit e).2
  | .modifyElement id f => d.modifyElement id f

def Document.build (revisions : List Revision) : Document :=
  revisions.foldl revise empty

def ThreadedDocument.revise (t : ThreadedDocument) : Revision → ThreadedDocument
  | .edit e => (t.edit e).2
  | .modifyElement id f => t.modifyElement id f

def ThreadedDocument.build (revisions : List Revision) : ThreadedDocument :=
  revisions.foldl revise empty

theorem Threads.revise {t : ThreadedDocument} {d : Document} (h : Threads t d) (hd : d.Linked)
    (r : Revision) : Threads (t.revise r) (d.revise r) ∧ (d.revise r).Linked := by
  cases r with
  | edit e => exact ⟨(h.edit hd e).2, Document.edit_linked hd e⟩
  | modifyElement => exact ⟨h.modifyElement, Document.modifyElement_linked hd⟩

theorem Threads.build (revisions : List Revision) :
    Threads (.build revisions) (.build revisions) ∧ (Document.build revisions).Linked := by
  induction revisions using List.reverseRecOn with
  | nil => exact ⟨.empty, Document.empty_linked⟩
  | append_singleton revisions r ih =>
      rw [ThreadedDocument.build, Document.build, List.foldl_concat, List.foldl_concat]
      exact ih.1.revise ih.2 r

theorem ThreadedDocument.build_insertBefore (revisions : List Revision) (parent child : NodeId)
    (before : Option NodeId) :
    let d := Document.build revisions
    let d' := (d.insertBefore parent child before).2
    let t := build revisions
    let t' := (t.insertBefore parent child before).2
    let done := (t.insertBefore parent child before).1
    (done = true ↔ t.outline.Permits parent child before) ∧
      (done = true → t.outline.Placed t'.outline parent child before) ∧
      (done = false → t' = t ∧ d' = d) ∧
      t.append parent child = t.insertBefore parent child none ∧
      (d.insertBefore parent child before).1 = done ∧
      d.outline = t.outline ∧ d'.outline = t'.outline := by
  intro d d' t t' done
  obtain ⟨threads, linked⟩ := Threads.build revisions
  obtain ⟨answer, threads'⟩ := threads.insertBefore linked parent child before
  have hdone : done = (d.insertBefore parent child before).1 := answer
  have looks : t.outline = d.outline := threads.outline linked
  have looks' : t'.outline = d'.outline :=
    threads'.outline (Document.insertBefore_linked linked parent child before)
  obtain ⟨permitted, placed, kept⟩ := linked.insertBefore_spec parent child before
  have refused (hfalse : done = false) : t' = t := by
    simp only [done, t', insertBefore] at hfalse ⊢
    split at hfalse
    · cases hfalse
    · rename_i hcan
      rw [if_neg hcan]
  refine ⟨?_, ?_, fun hfalse => ⟨refused hfalse, kept (hdone.symm.trans hfalse)⟩, rfl,
    hdone.symm, looks.symm, looks'.symm⟩
  · rwa [hdone, looks]
  · rwa [hdone, looks, looks']

end CssStyling
