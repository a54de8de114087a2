import CssStyling.Proofs.Document.Neighbors

namespace CssStyling.Document

variable {d₀ d : Document} {x c p : NodeId} {a b : List NodeId}
  {before : Option NodeId}

/-- The second document has a node more among the children of a parent, which is a root in the
first one. -/
structure Spliced (d₀ d : Document) (p c : NodeId) (a b : List NodeId) : Prop where
  linked₀ : d₀.Linked
  linked : d.Linked
  root : d₀.parent? c = none
  parent (x : NodeId) : d.parent? x = if c = x then some p else d₀.parent? x
  without : d₀.children p = a ++ b
  children (x : NodeId) : d.children x = if p = x then a ++ c :: b else d₀.children x

namespace Spliced

theorem children_parent (h : Spliced d₀ d p c a b) : d.children p = a ++ c :: b := by
  rw [h.children, if_pos rfl]

theorem nodup (h : Spliced d₀ d p c a b) : (a ++ c :: b).Nodup :=
  h.children_parent ▸ h.linked.nodup p

theorem not_mem (h : Spliced d₀ d p c a b) : c ∉ a ∧ c ∉ b :=
  not_mem_of_nodup h.nodup

theorem mem_sides (h : Spliced d₀ d p c a b) (hx : d₀.parent? x = some p) : x ∈ a ++ b :=
  h.without ▸ h.linked₀.listed hx

theorem not_mem_sides (h : Spliced d₀ d p c a b) (hx : d₀.parent? x ≠ some p) : x ∉ a ++ b :=
  fun hmem => hx (h.linked₀.parent (h.without ▸ hmem))

theorem previous_self (h : Spliced d₀ d p c a b) : d.previousSibling? c = a.getLast? :=
  (h.linked.neighbors h.children_parent).1

theorem next_self (h : Spliced d₀ d p c a b) : d.nextSibling? c = b.head? :=
  (h.linked.neighbors h.children_parent).2

theorem siblings (h : Spliced d₀ d p c a b) (hx : c ≠ x) : d.siblings x =
    if d₀.parent? x = some p then a ++ c :: b else d₀.siblings x := by
  have hp : d.parent? x = d₀.parent? x := by rw [h.parent, if_neg hx]
  cases hq : d₀.parent? x with
  | none => rw [siblings_of_root (hp.trans hq), siblings_of_root hq, if_neg (by simp)]
  | some q =>
      rw [siblings_of_parent (hp.trans hq), siblings_of_parent hq, h.children]
      simp only [Option.some.injEq, eq_comm]

theorem first (h : Spliced d₀ d p c a b) : d.firstChild? x =
    if a.getLast? = none ∧ p = x then some c else d₀.firstChild? x := by
  rw [firstChild?, firstChild?, h.children]
  by_cases hx : p = x
  · subst x
    rw [if_pos rfl, h.without]
    cases a <;> simp
  · rw [if_neg hx, if_neg fun hc => hx hc.2]

theorem last (h : Spliced d₀ d p c a b) : d.lastChild? x =
    if b.head? = none ∧ p = x then some c else d₀.lastChild? x := by
  rw [lastChild?, lastChild?, h.children]
  by_cases hx : p = x
  · subst x
    rw [if_pos rfl, h.without]
    cases b <;> simp [List.getLast?_append]
  · rw [if_neg hx, if_neg fun hc => hx hc.2]

theorem previous_of_ne (h : Spliced d₀ d p c a b) (hx : c ≠ x) : d.previousSibling? x =
    if b.head? = some x then some c else d₀.previousSibling? x := by
  rw [previousSibling?_eq, previousSibling?_eq, h.siblings hx]
  by_cases hp : d₀.parent? x = some p
  · rw [if_pos hp, siblings_of_parent hp, h.without, before_insert h.nodup (h.mem_sides hp)]
  · have hout := h.not_mem_sides hp
    rw [if_neg hp, if_neg (head?_ne fun hmem => hout (List.mem_append_right a hmem))]

theorem next_of_ne (h : Spliced d₀ d p c a b) (hx : c ≠ x) : d.nextSibling? x =
    if a.getLast? = some x then some c else d₀.nextSibling? x := by
  rw [nextSibling?_eq, nextSibling?_eq, h.siblings hx]
  by_cases hp : d₀.parent? x = some p
  · rw [if_pos hp, siblings_of_parent hp, h.without, after_insert h.nodup (h.mem_sides hp)]
  · have hout := h.not_mem_sides hp
    rw [if_neg hp, if_neg (getLast?_ne fun hmem => hout (List.mem_append_left b hmem))]

theorem previous (h : Spliced d₀ d p c a b) : d.previousSibling? x =
    if b.head? = some x then some c else if c = x then a.getLast? else d₀.previousSibling? x := by
  by_cases hx : c = x
  · subst x
    rw [h.previous_self, if_neg (head?_ne h.not_mem.2), if_pos rfl]
  · rw [h.previous_of_ne hx, if_neg hx]

theorem next (h : Spliced d₀ d p c a b) : d.nextSibling? x =
    if a.getLast? = some x then some c else if c = x then b.head? else d₀.nextSibling? x := by
  by_cases hx : c = x
  · subst x
    rw [h.next_self, if_neg (getLast?_ne h.not_mem.1), if_pos rfl]
  · rw [h.next_of_ne hx, if_neg hx]

theorem parent_without (h : Spliced d₀ d p c a b) : d₀.parent? x =
    if c = x then none else d.parent? x := by
  rw [h.parent]
  split
  · rename_i hx
    exact hx ▸ h.root
  · rfl

theorem first_without (h : Spliced d₀ d p c a b) : d₀.firstChild? x =
    if a.getLast? = none ∧ p = x then b.head? else d.firstChild? x := by
  rw [h.first]
  split
  · rename_i hx
    have hnil : a = [] := List.getLast?_eq_none_iff.mp hx.1
    rw [← hx.2, firstChild?, h.without, hnil, List.nil_append]
  · rfl

theorem last_without (h : Spliced d₀ d p c a b) : d₀.lastChild? x =
    if b.head? = none ∧ p = x then a.getLast? else d.lastChild? x := by
  rw [h.last]
  split
  · rename_i hx
    have hnil : b = [] := List.head?_eq_none_iff.mp hx.1
    rw [← hx.2, lastChild?, h.without, hnil, List.append_nil]
  · rfl

theorem previous_without (h : Spliced d₀ d p c a b) : d₀.previousSibling? x =
    if c = x then none else if b.head? = some x then a.getLast? else d.previousSibling? x := by
  by_cases hx : c = x
  · rw [if_pos hx, ← hx, previousSibling?_eq, siblings_of_root h.root]
    rfl
  · rw [if_neg hx, h.previous_of_ne hx]
    split
    · rename_i hb
      obtain ⟨b, rfl⟩ := List.head?_eq_some_iff.mp hb
      exact (h.linked₀.neighbors h.without).1
    · rfl

theorem next_without (h : Spliced d₀ d p c a b) : d₀.nextSibling? x =
    if c = x then none else if a.getLast? = some x then b.head? else d.nextSibling? x := by
  by_cases hx : c = x
  · rw [if_pos hx, ← hx, nextSibling?_eq, siblings_of_root h.root]
    rfl
  · rw [if_neg hx, h.next_of_ne hx]
    split
    · rename_i ha
      obtain ⟨a, rfl⟩ := List.getLast?_eq_some_iff.mp ha
      have hsplit : d₀.children p = a ++ x :: b := by simpa using h.without
      exact (h.linked₀.neighbors hsplit).2
    · rfl

end Spliced

theorem spliced_detach (h : d.Linked) (hc : d.children p = a ++ c :: b) :
    Spliced (d.detach c) d p c a b := by
  have hp : d.parent? c = some p := h.parent (hc ▸ List.mem_append_right a List.mem_cons_self)
  have hca := (not_mem_of_nodup (hc ▸ h.nodup p)).1
  refine ⟨detach_linked h c, h, by rw [parent?_detach, if_pos rfl], fun x => ?_, ?_, fun x => ?_⟩
  · rw [parent?_detach]
    split
    · rename_i hx
      exact hx ▸ hp
    · rfl
  · rw [children_detach h, hc, List.erase_append_right _ hca, List.erase_cons_head]
  · split
    · rename_i hx
      exact hx ▸ hc
    · rename_i hx
      have off : c ∉ d.children x := fun hmem =>
        hx (Option.some.inj (hp.symm.trans (h.parent hmem)))
      rw [children_detach h, List.erase_of_not_mem off]

theorem spliced_link (h : d.Linked) (hp : d.contains p = true) (hc : d.contains c = true)
    (hroot : d.parent? c = none) (hanc : ∀ l, Lineage d.parent? p l → c ∉ l) :
    Spliced d (d.link p c before) p c ((d.children p).takeWhile fun y => some y != before)
      ((d.children p).dropWhile fun y => some y != before) where
  linked₀ := h
  linked := link_linked h hp hc hroot hanc
  root := hroot
  parent x := parent?_link hc
  without := (List.takeWhile_append_dropWhile).symm
  children x := by
    rw [children_link_eq hp]
    split
    · rename_i hx
      rw [hx]
    · rfl

theorem head?_dropWhile {l : List NodeId} (hb : ∀ r, before = some r → r ∈ l) :
    (l.dropWhile fun y => some y != before).head? = before := by
  induction l with
  | nil =>
      cases before with
      | none => rfl
      | some r => exact absurd (hb r rfl) List.not_mem_nil
  | cons y l ih =>
      by_cases hy : before = some y
      · simp [hy]
      · have hpos : (some y != before) = true := by simpa using Ne.symm hy
        rw [List.dropWhile_cons, if_pos hpos]
        refine ih fun r hr => (List.mem_cons.mp (hb r hr)).resolve_left ?_
        rintro rfl
        exact hy hr

end CssStyling.Document
