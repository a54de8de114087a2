import CssStyling.Proofs.Document.Paths
import Mathlib

namespace CssStyling.Document

variable {d : Document} {x c p id : NodeId} {l m known known' : List NodeId} {n : Nat}

inductive TopDown (d : Document) : List NodeId → List NodeId → Prop where
  | nil {known : List NodeId} : TopDown d known []
  | cons {known l : List NodeId} {x p : NodeId} : d.parent? x = some p → p ∈ known →
      TopDown d (x :: known) l → TopDown d known (x :: l)

theorem TopDown.mono (h : TopDown d known l) (hk : known ⊆ known') : TopDown d known' l := by
  induction h generalizing known' with
  | nil => exact .nil
  | cons hp hmem _ ih => exact .cons hp (hk hmem) (ih (List.cons_subset_cons _ hk))

theorem TopDown.append (h : TopDown d known l) (h' : TopDown d known m) :
    TopDown d known (l ++ m) := by
  induction h with
  | nil => exact h'
  | cons hp hmem _ ih => exact .cons hp hmem (ih (h'.mono (List.subset_cons_self _ _)))

theorem topDown_descendantsWithin (h : d.Linked) (n : Nat) (hid : id ∈ known) :
    TopDown d known (d.descendantsWithin n id) := by
  induction n generalizing id known with
  | zero => exact .nil
  | succ n ih =>
      have below : ∀ cs ⊆ d.children id, ∀ known, id ∈ known →
          TopDown d known (cs.flatMap fun c => c :: d.descendantsWithin n c) := by
        intro cs
        induction cs with
        | nil => exact fun _ _ _ => .nil
        | cons c cs ihc =>
            intro hcs known hid
            obtain ⟨hc, hcs⟩ := List.cons_subset.mp hcs
            refine .append (.cons (h.parent hc) hid (ih List.mem_cons_self)) (ihc hcs known hid)
      exact below _ (List.Subset.refl _) known hid

theorem exists_of_mem_cons_descendantsWithin (h : d.Linked) (hl : Lineage d.parent? c l)
    (hx : x ∈ c :: d.descendantsWithin n c) : ∃ pre, Lineage d.parent? x (pre ++ l) := by
  rcases List.mem_cons.mp hx with rfl | hx
  · exact ⟨[], hl⟩
  · obtain ⟨pre, _, hlin⟩ := exists_of_mem_descendantsWithin h hl hx
    exact ⟨pre, hlin⟩

theorem nodup_cons_descendantsWithin (h : d.Linked) (n : Nat) (id : NodeId) :
    (id :: d.descendantsWithin n id).Nodup := by
  induction n generalizing id with
  | zero => simp [descendantsWithin]
  | succ n ih =>
      obtain ⟨l, hl⟩ := h.rooted id
      have child {c : NodeId} (hc : c ∈ d.children id) : Lineage d.parent? c (c :: l) :=
        .step (h.parent hc) hl
      refine List.nodup_cons.mpr ⟨fun hmem => ?_, ?_⟩
      · obtain ⟨pre, hne, hlin⟩ := exists_of_mem_descendantsWithin h hl hmem
        have hlen := congrArg List.length (hl.unique hlin)
        simp only [List.length_append] at hlen
        exact hne (List.length_eq_zero_iff.mp (by omega))
      · refine List.nodup_flatMap.mpr ⟨fun c _ => ih c, ?_⟩
        refine (h.nodup id).imp_of_mem fun {c c'} hc hc' hne => ?_
        rw [Function.onFun, List.disjoint_left]
        intro x hx hx'
        -- both lineages of `x` end alike, so they pass through the same child
        obtain ⟨pre, hlin⟩ := exists_of_mem_cons_descendantsWithin h (child hc) hx
        obtain ⟨pre', hlin'⟩ := exists_of_mem_cons_descendantsWithin h (child hc') hx'
        have same := (List.append_inj' (hlin.unique hlin') (by simp)).2
        exact hne (List.cons.inj same).1

theorem Linked.nodup_subtree (h : d.Linked) (id : NodeId) : (d.subtree id).Nodup :=
  nodup_cons_descendantsWithin h d.height id

theorem Linked.topDown_descendants (h : d.Linked) (id : NodeId) :
    TopDown d [id] (d.descendants id) :=
  topDown_descendantsWithin h d.height List.mem_cons_self

end CssStyling.Document
