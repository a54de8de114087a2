import CssStyling.Proofs.Document.Inserting
import CssStyling.Proofs.Matching.Nth

namespace CssStyling

namespace Document

variable {d : Document} {x p : NodeId} {l₁ l₂ : List NodeId}

def elementRow (d : Document) (id : NodeId) : List NodeId :=
  match d.parent? id with
  | some p => (d.children p).filter d.isElement
  | none => [id]

theorem following_eq (h : d.Linked) (hp : d.parent? x = some p)
    (hc : d.children p = l₁ ++ x :: l₂) : d.following x = l₂ := by
  have hx := (not_mem_of_nodup (hc ▸ h.nodup p)).1
  have skipped : ∀ y ∈ l₁, (y != x) = true := by
    intro y hy
    simpa using fun hyx : y = x => hx (hyx ▸ hy)
  rw [following, siblings_of_parent hp, hc, List.dropWhile_append_of_pos skipped]
  simp

theorem following_of_root (hp : d.parent? x = none) : d.following x = [] := by
  rw [following, siblings_of_root hp]
  rfl

theorem elementRow_eq (h : d.Linked) (hx : d.isElement x = true) :
    d.elementRow x = (d.precedingElements x).reverse ++ x :: d.followingElements x := by
  unfold elementRow precedingElements followingElements
  cases hp : d.parent? x with
  | none => simp [preceding_of_root hp, following_of_root hp]
  | some p =>
      obtain ⟨l₁, l₂, hc⟩ := h.exists_siblings hp
      rw [preceding_eq h hp hc, following_eq h hp hc]
      simp [hc, hx, List.filter_append, List.filter_reverse]

theorem nodup_elementRow (h : d.Linked) (x : NodeId) : (d.elementRow x).Nodup := by
  unfold elementRow
  cases d.parent? x with
  | none => exact List.nodup_singleton x
  | some p => exact (h.nodup p).filter _

theorem length_elementRow_le (h : d.Linked) (hx : d.contains x = true) :
    (d.elementRow x).length ≤ d.height := by
  refine length_le_height (nodup_elementRow h x) fun y hy => ?_
  unfold elementRow at hy
  cases hp : d.parent? x with
  | none =>
      rw [hp] at hy
      rw [List.mem_singleton.mp hy]
      exact hx
  | some p =>
      rw [hp] at hy
      exact h.contains_child (List.mem_of_mem_filter hy)

end Document

namespace Threads

variable {t : ThreadedDocument} {d : Document} {x p : NodeId} {l₁ l₂ : List NodeId} {n : ℕ}

theorem isElement (h : Threads t d) : t.isElement = d.isElement := by
  funext x
  rw [ThreadedDocument.isElement, h.node, Document.data?, Option.bind_map, Option.bind_map]
  rfl

theorem backwards (h : Threads t d) (hd : d.Linked) (hc : d.children p = l₁ ++ l₂)
    (hn : l₁.length ≤ n) : t.backwards n l₁.getLast? = l₁.reverse := by
  induction l₁ using List.reverseRecOn generalizing l₂ n with
  | nil => cases n <;> rfl
  | append_singleton l₁ x ih =>
      rw [List.append_assoc, List.singleton_append] at hc
      rw [List.length_append, List.length_singleton] at hn
      obtain ⟨n, rfl⟩ := Nat.exists_eq_add_of_le' (Nat.le_trans (Nat.le_add_left 1 _) hn)
      have previous : t.previous? x = l₁.getLast? := h.previous?.trans (hd.neighbors hc).1
      rw [List.getLast?_concat, List.reverse_concat, ThreadedDocument.backwards, previous,
        ih hc (Nat.le_of_succ_le_succ hn)]

theorem onwards (h : Threads t d) (hd : d.Linked) (hc : d.children p = l₁ ++ l₂)
    (hn : l₂.length ≤ n) : t.onwards n l₂.head? = l₂ := by
  have walk := hd.walk hc
  rw [← h.links] at walk
  exact onwards_of_walk walk hn

theorem sides (h : Threads t d) (hd : d.Linked) :
    t.precedingElements x = d.precedingElements x ∧
      t.followingElements x = d.followingElements x := by
  rw [ThreadedDocument.precedingElements, ThreadedDocument.followingElements,
    Document.precedingElements, Document.followingElements, h.isElement, h.height, h.previous?,
    h.next?]
  cases hp : d.parent? x with
  | none =>
      have alone := hd.orderedForest.alone hp
      have previous : d.previousSibling? x = none := alone.1
      have next : d.nextSibling? x = none := alone.2
      rw [previous, next, Document.preceding_of_root hp, Document.following_of_root hp]
      cases d.height <;> exact ⟨rfl, rfl⟩
  | some p =>
      obtain ⟨l₁, l₂, hc⟩ := hd.exists_siblings hp
      have room := hd.length_children_le p
      rw [hc, List.length_append, List.length_cons] at room
      have split : d.children p = (l₁ ++ [x]) ++ l₂ := by simpa using hc
      rw [(hd.neighbors hc).1, (hd.neighbors hc).2, h.backwards hd hc (by omega),
        h.onwards hd split (by omega), Document.preceding_eq hd hp hc,
        Document.following_eq hd hp hc]
      exact ⟨rfl, rfl⟩

end Threads

namespace Matching

variable {c : MatchingContext} {d : Document} {id : NodeId} {e : Element} {row : List NodeId}
  {i : ℕ}

def OnlyOfType (d : Document) (e : Element) (others : List NodeId) : Prop :=
  ∀ x ∈ others, ∀ f, d.element? x = some f → ¬(f.localName = e.localName ∧ f.space = e.space)

structure StandsAt (c : MatchingContext) (d : Document) (id : NodeId) (e : Element)
    (row : List NodeId) (i : ℕ) : Prop where
  firstChild : simple c d id e (.pseudoClass "first-child" none) = true ↔ i = 1
  lastChild : simple c d id e (.pseudoClass "last-child" none) = true ↔ i = row.length
  onlyChild : simple c d id e (.pseudoClass "only-child" none) = true ↔ row.length = 1
  firstOfType : simple c d id e (.pseudoClass "first-of-type" none) = true ↔
    OnlyOfType d e (row.take (i - 1))
  lastOfType : simple c d id e (.pseudoClass "last-of-type" none) = true ↔
    OnlyOfType d e (row.drop i)
  nthChild {arguments : List Token} {p : Nth} : Nth.ofTokens? arguments = some p →
    (simple c d id e (.pseudoClass "nth-child" (some arguments)) = true ↔
      ∃ k : ℕ, p.step * k + p.offset = i)
  nthLastChild {arguments : List Token} {p : Nth} : Nth.ofTokens? arguments = some p →
    (simple c d id e (.pseudoClass "nth-last-child" (some arguments)) = true ↔
      ∃ k : ℕ, p.step * k + p.offset = row.length - i + 1)

theorem not_any_sameType {l : List NodeId} :
    (!l.any (sameType d e)) = true ↔ OnlyOfType d e l := by
  simp only [Bool.not_eq_true', List.any_eq_false, sameType, Option.any_eq_true, Bool.and_eq_true,
    beq_iff_eq, not_exists, not_and, OnlyOfType]

theorem nthPosition_iff {arguments : List Token} {p : Nth} {n : ℕ}
    (h : Nth.ofTokens? arguments = some p) (hn : n ≤ 2 ^ 32) :
    nthPosition arguments n = true ↔ ∃ k : ℕ, p.step * k + p.offset = n := by
  rw [nthPosition, h, Option.any_some]
  exact Nth.selects_iff ((Nth.limited_of_ofTokens? h).fitsWord hn)

theorem standsAt_of_sides {before after : List NodeId} (hb : d.precedingElements id = before)
    (ha : d.followingElements id = after) (room : before.length + after.length < 2 ^ 32) :
    StandsAt c d id e (before.reverse ++ id :: after) (before.length + 1) where
  firstChild := by
    simp [simple, pseudoClass, Document.previousElement?, hb]
  lastChild := by
    simp [simple, pseudoClass, Document.nextElement?, ha]
  onlyChild := by
    have both : before = [] ∧ after = [] ↔ before.length + (after.length + 1) = 1 := by
      rw [← List.length_eq_zero_iff, ← List.length_eq_zero_iff]
      omega
    simp [simple, pseudoClass, Document.previousElement?, Document.nextElement?, hb, ha, both]
  firstOfType := by
    have taken : (before.reverse ++ id :: after).take before.length = before.reverse := by
      rw [← List.length_reverse, List.take_left]
    rw [Nat.add_sub_cancel, taken, ← not_any_sameType, List.any_reverse, ← hb]
    exact Iff.rfl
  lastOfType := by
    have dropped : (before.reverse ++ id :: after).drop (before.length + 1) = after := by
      simp [List.drop_append]
    rw [dropped, ← not_any_sameType, ← ha]
    exact Iff.rfl
  nthChild {arguments p} h := by
    have position : simple c d id e (.pseudoClass "nth-child" (some arguments)) =
        nthPosition arguments (before.length + 1) := by
      rw [← hb]
      rfl
    rw [position]
    exact nthPosition_iff h (by omega)
  nthLastChild {arguments p} h := by
    have position : simple c d id e (.pseudoClass "nth-last-child" (some arguments)) =
        nthPosition arguments (after.length + 1) := by
      rw [← ha]
      rfl
    have place : (((before.reverse ++ id :: after).length : ℤ) - (before.length + 1 : ℕ) + 1) =
        (after.length + 1 : ℕ) := by
      simp only [List.length_append, List.length_reverse, List.length_cons]
      omega
    rw [position, place]
    exact nthPosition_iff h (by omega)

/-- Keys number slots by words of thirty-two bits, so no document has more of them. -/
theorem build_structural (revisions : List Revision) (c : MatchingContext)
    (he : (Document.build revisions).element? id = some e)
    (room : (Document.build revisions).height ≤ 2 ^ 32) :
    let d := Document.build revisions
    let t := ThreadedDocument.build revisions
    let row := d.elementRow id
    let i := row.idxOf id + 1
    row.Nodup ∧ row[i - 1]? = some id ∧ StandsAt c d id e row i ∧
      t.precedingElements id = (row.take (i - 1)).reverse ∧
      t.followingElements id = row.drop i := by
  intro d t row i
  obtain ⟨threads, linked⟩ := Threads.build revisions
  have element : d.isElement id = true := by
    rw [Document.isElement, he]
    rfl
  obtain ⟨before, after⟩ := threads.sides linked (x := id)
  have split : row = (d.precedingElements id).reverse ++ id :: d.followingElements id :=
    Document.elementRow_eq linked element
  have nodup : row.Nodup := Document.nodup_elementRow linked id
  have contained : d.contains id = true := by
    obtain ⟨node, hn, -⟩ := Option.bind_eq_some_iff.mp he
    exact Document.contains_iff.mpr ⟨node, hn⟩
  have fits : row.length ≤ 2 ^ 32 := (Document.length_elementRow_le linked contained).trans room
  have place : i = (d.precedingElements id).length + 1 := by
    have absent := (Document.not_mem_of_nodup (split ▸ nodup)).1
    simp only [i, split, List.idxOf_append_of_notMem absent, List.idxOf_cons_self,
      List.length_reverse, add_zero]
  have sides : (d.precedingElements id).length + (d.followingElements id).length < 2 ^ 32 := by
    rw [split, List.length_append, List.length_cons, List.length_reverse] at fits
    omega
  have stands : StandsAt c d id e (_ ++ id :: _) (_ + 1) := standsAt_of_sides rfl rfl sides
  refine ⟨nodup, ?_, ?_, ?_, ?_⟩
  · rw [place, split, Nat.add_sub_cancel, List.getElem?_append_right (by simp)]
    simp
  · rw [place, split]
    exact stands
  · rw [before, place, split, Nat.add_sub_cancel, ← List.length_reverse, List.take_left,
      List.reverse_reverse]
  · rw [after, place, split]
    simp [d, List.drop_append]

def item : Element :=
  ⟨none, "li", []⟩

def itemsAroundText : List Revision :=
  [.edit (.create (.element ⟨none, "ul", []⟩)), .edit (.create (.element item)),
    .edit (.create (.text "or")), .edit (.create (.element item)), .edit (.append ⟨0, 0⟩ ⟨1, 0⟩),
    .edit (.append ⟨0, 0⟩ ⟨2, 0⟩), .edit (.append ⟨0, 0⟩ ⟨3, 0⟩)]

theorem build_structural_second :
    (Document.build itemsAroundText).element? ⟨3, 0⟩ = some item ∧
      (Document.build itemsAroundText).height ≤ 2 ^ 32 ∧
      StandsAt .standard (Document.build itemsAroundText) ⟨3, 0⟩ item [⟨1, 0⟩, ⟨3, 0⟩] 2 ∧
      (ThreadedDocument.build itemsAroundText).precedingElements ⟨3, 0⟩ = [⟨1, 0⟩] := by
  have he : (Document.build itemsAroundText).element? ⟨3, 0⟩ = some item := by cbv
  have room : (Document.build itemsAroundText).height ≤ 2 ^ 32 := by decide +kernel
  have row : (Document.build itemsAroundText).elementRow ⟨3, 0⟩ = [⟨1, 0⟩, ⟨3, 0⟩] := by cbv
  obtain ⟨-, -, stands, preceding, -⟩ := build_structural itemsAroundText .standard he room
  rw [row] at stands preceding
  exact ⟨he, room, stands, preceding⟩

end Matching

end CssStyling
