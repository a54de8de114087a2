import CssStyling.Matching
import CssStyling.Proofs.Document.Editing
import Mathlib

namespace CssStyling

namespace Document

variable {d : Document} {x y p : NodeId} {pass : NodeId → Bool} {l l₁ l₂ : List NodeId} {n : Nat}

structure Precedes (d : Document) (x y : NodeId) (between : List NodeId) : Prop where
  element : d.isElement x = true
  siblings : ∃ p before after,
    d.parent? y = some p ∧ d.children p = before ++ x :: between ++ y :: after

def Related (d : Document) : Combinator → NodeId → NodeId → Prop
  | .child, x, y => d.parentElement? y = some x
  | .descendant, x, y => Relation.TransGen (fun a b => d.parentElement? b = some a) x y
  | .nextSibling, x, y => ∃ between, d.Precedes x y between ∧ ∀ z ∈ between, d.isElement z = false
  | .subsequentSibling, x, y => ∃ between, d.Precedes x y between
  | .column, _, _ => False
  | .none, _, _ => False

theorem parentElement?_eq_some : d.parentElement? y = some x ↔
    d.parent? y = some x ∧ d.isElement x = true := by
  rw [parentElement?, Option.filter_eq_some_iff]

theorem anyAncestorWithin_iff (hl : Lineage d.parent? y l) (hn : l.tail.length ≤ n) :
    d.anyAncestorWithin pass n y = true ↔ ∃ x, d.Related .descendant x y ∧ pass x = true := by
  induction n generalizing y l with
  | zero =>
      simp only [anyAncestorWithin, Bool.false_eq_true, false_iff]
      rintro ⟨x, hx, _⟩
      obtain ⟨p, _, hp⟩ := Relation.TransGen.tail'_iff.mp hx
      obtain ⟨t, rfl, ht⟩ := hl.of_parent (parentElement?_eq_some.mp hp).1
      have hpos := ht.length_pos
      simp only [List.tail_cons] at hn
      omega
  | succ n ih =>
      rw [anyAncestorWithin]
      cases hp : d.parentElement? y with
      | none =>
          simp only [Bool.false_eq_true, false_iff]
          rintro ⟨x, hx, _⟩
          obtain ⟨p, _, hp'⟩ := Relation.TransGen.tail'_iff.mp hx
          simp [hp] at hp'
      | some q =>
          obtain ⟨t, rfl, ht⟩ := hl.of_parent (parentElement?_eq_some.mp hp).1
          obtain ⟨t', rfl⟩ := ht.eq_cons
          rw [Bool.or_eq_true, ih ht (by simpa using hn)]
          constructor
          · rintro (hq | ⟨x, hx, hpass⟩)
            · exact ⟨q, .single hp, hq⟩
            · exact ⟨x, .tail hx hp, hpass⟩
          · rintro ⟨x, hx, hpass⟩
            obtain ⟨q', hx, hp'⟩ := Relation.TransGen.tail'_iff.mp hx
            obtain rfl := Option.some.inj (hp.symm.trans hp')
            rcases Relation.reflTransGen_iff_eq_or_transGen.mp hx with rfl | hx
            · exact .inl hpass
            · exact .inr ⟨x, hx, hpass⟩

theorem preceding_eq (h : d.Linked) (hp : d.parent? y = some p)
    (hc : d.children p = l₁ ++ y :: l₂) : d.preceding y = l₁.reverse := by
  have hnodup := h.nodup p
  rw [hc] at hnodup
  have hy : y ∉ l₁ := fun hmem => by
    exact (List.nodup_append.mp hnodup).2.2 y hmem y List.mem_cons_self rfl
  have htake : (l₁ ++ y :: l₂).takeWhile (· != y) = l₁ := by
    rw [List.takeWhile_append_of_pos]
    · simp
    · intro z hz
      simpa using fun hzy : z = y => hy (hzy ▸ hz)
  rw [preceding, siblings, hp]
  simp only [hc, htake]

theorem preceding_of_root (hp : d.parent? y = none) : d.preceding y = [] := by
  rw [preceding, siblings, hp]
  rfl

theorem mem_precedingElements (h : d.Linked) :
    x ∈ d.precedingElements y ↔ d.Related .subsequentSibling x y := by
  rw [precedingElements, List.mem_filter]
  constructor
  · rintro ⟨hx, hel⟩
    cases hp : d.parent? y with
    | none => simp [preceding_of_root hp] at hx
    | some p =>
        obtain ⟨l₁, l₂, hc⟩ := List.append_of_mem (h.listed hp)
        rw [preceding_eq h hp hc, List.mem_reverse] at hx
        obtain ⟨before, between, rfl⟩ := List.append_of_mem hx
        exact ⟨between, hel, p, before, l₂, hp, hc⟩
  · rintro ⟨between, hel, p, before, after, hp, hc⟩
    rw [preceding_eq h hp hc]
    exact ⟨by simp, hel⟩

theorem previousElement?_eq_some (h : d.Linked) :
    d.previousElement? y = some x ↔ d.Related .nextSibling x y := by
  rw [previousElement?, precedingElements, List.head?_filter, List.find?_eq_some_iff_append]
  constructor
  · rintro ⟨hel, between, before, hsplit, hbetween⟩
    cases hp : d.parent? y with
    | none => simp [preceding_of_root hp] at hsplit
    | some p =>
        obtain ⟨l₁, l₂, hc⟩ := List.append_of_mem (h.listed hp)
        rw [preceding_eq h hp hc, List.reverse_eq_iff] at hsplit
        refine ⟨between.reverse, ⟨hel, p, before.reverse, l₂, hp, ?_⟩, fun z hz => ?_⟩
        · simpa [hsplit] using hc
        · simpa using hbetween z (List.mem_reverse.mp hz)
  · rintro ⟨between, ⟨hel, p, before, after, hp, hc⟩, hbetween⟩
    rw [preceding_eq h hp hc]
    refine ⟨hel, between.reverse, before.reverse, by simp, fun z hz => ?_⟩
    simpa using hbetween z (List.mem_reverse.mp hz)

theorem anyRelated_iff (h : d.Linked) (k : Combinator) :
    d.anyRelated pass y k = true ↔ ∃ x, d.Related k x y ∧ pass x = true := by
  cases k with
  | child => simp [anyRelated, Related, Option.any_eq_true]
  | descendant =>
      obtain ⟨l, hl⟩ := h.rooted y
      exact anyAncestorWithin_iff hl (h.lineage_tail_le hl)
  | nextSibling =>
      simp only [anyRelated, Option.any_eq_true, previousElement?_eq_some h]
  | subsequentSibling =>
      simp only [anyRelated, List.any_eq_true, mem_precedingElements h]
  | column => simp [anyRelated, Related]
  | none => simp [anyRelated, Related]

end Document

namespace Matching

variable {c : MatchingContext} {d : Document} {id : NodeId}

theorem leftward_iff (h : d.Linked) (steps : List Step) :
    leftward c d steps id = true ↔ ∃ e : ℕ → NodeId, e steps.length = id ∧
      ∀ i step, steps.reverse[i]? = some step →
        compound c d (e i) step.compound = true ∧
          d.Related step.combinator (e i) (e (i + 1)) := by
  induction steps generalizing id with
  | nil => simpa [leftward] using ⟨fun _ => id, rfl⟩
  | cons step steps ih =>
      rw [leftward, Document.anyRelated_iff h]
      constructor
      · rintro ⟨x, hx, hpass⟩
        rw [Bool.and_eq_true, ih] at hpass
        obtain ⟨hcompound, e, hlast, he⟩ := hpass
        refine ⟨Function.update e (steps.length + 1) id, by simp, fun i step' hi => ?_⟩
        rw [List.reverse_cons, List.getElem?_append, List.length_reverse] at hi
        split at hi
        · rename_i hlt
          rw [Function.update_of_ne (by omega), Function.update_of_ne (by omega)]
          exact he i step' hi
        · have hi' : i = steps.length := by
            have hlt := (List.getElem?_eq_some_iff.mp hi).1
            simp only [List.length_singleton] at hlt
            omega
          subst i
          simp only [Nat.sub_self, List.getElem?_cons_zero, Option.some.injEq] at hi
          subst step'
          rw [Function.update_of_ne (by omega), Function.update_self, hlast]
          exact ⟨hcompound, hx⟩
      · rintro ⟨e, hlast, he⟩
        have hstep := he steps.length step (by simp)
        refine ⟨e steps.length, hlast ▸ hstep.2, ?_⟩
        rw [Bool.and_eq_true, ih]
        refine ⟨hstep.1, e, rfl, fun i step' hi => he i step' ?_⟩
        rw [List.reverse_cons, List.getElem?_append_left]
        · exact hi
        · exact (List.getElem?_eq_some_iff.mp hi).1

theorem complex_iff (h : d.Reached) (s : Complex) :
    complex c d s id = true ↔ ∃ e : ℕ → NodeId, e s.ancestors.length = id ∧
      (∀ i step, s.steps[i]? = some step → compound c d (e i) step.compound = true) ∧
      ∀ i step, s.ancestors[i]? = some step → d.Related step.combinator (e i) (e (i + 1)) := by
  rw [complex, Bool.and_eq_true, leftward_iff h.linked]
  simp only [List.length_reverse, List.reverse_reverse]
  constructor
  · rintro ⟨hsubject, e, hlast, he⟩
    refine ⟨e, hlast, fun i step hi => ?_, fun i step hi => (he i step hi).2⟩
    rw [Complex.steps, List.getElem?_append] at hi
    split at hi
    · exact (he i step hi).1
    · have hlt := (List.getElem?_eq_some_iff.mp hi).1
      have hi' : i = s.ancestors.length := by
        simp only [List.length_singleton] at hlt
        omega
      subst i
      simp only [Nat.sub_self, List.getElem?_cons_zero, Option.some.injEq] at hi
      rw [hlast, ← hi]
      exact hsubject
  · rintro ⟨e, hlast, hcompounds, hrelated⟩
    refine ⟨?_, e, hlast, fun i step hi => ⟨hcompounds i step ?_, hrelated i step hi⟩⟩
    · rw [← hlast]
      exact hcompounds s.ancestors.length ⟨s.subject, .none⟩ (by simp [Complex.steps])
    · rw [Complex.steps, List.getElem?_append_left (List.getElem?_eq_some_iff.mp hi).1]
      exact hi

def items : Document :=
  let (list, d) := Document.empty.create (.element ⟨none, "ul", []⟩)
  let (first, d) := d.create (.element ⟨none, "li", []⟩)
  let (second, d) := d.create (.element ⟨none, "li", []⟩)
  ((d.append list first).2.append list second).2

theorem items_reached : items.Reached :=
  .insertBefore (.insertBefore (.create (.create (.create .empty _) _) _) _ _ _) _ _ _

/-- `ul > li + li` -/
def secondItem : Complex where
  ancestors := [⟨⟨[.type .omitted "ul"]⟩, .child⟩, ⟨⟨[.type .omitted "li"]⟩, .nextSibling⟩]
  subject := ⟨[.type .omitted "li"]⟩
  specificity := ⟨0, 0, 3⟩

theorem secondItem_matches : items.Reached ∧
    ∃ e : ℕ → NodeId, e 2 = ⟨2, 0⟩ ∧
      (∀ i step, secondItem.steps[i]? = some step →
        compound .standard items (e i) step.compound = true) ∧
      ∀ i step, secondItem.ancestors[i]? = some step →
        items.Related step.combinator (e i) (e (i + 1)) := by
  have holds : complex .standard items secondItem ⟨2, 0⟩ = true := by cbv
  exact ⟨items_reached, (complex_iff items_reached secondItem).mp holds⟩

end Matching

end CssStyling
