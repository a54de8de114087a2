import CssStyling.Proofs.Matching

namespace CssStyling

namespace Document

variable {d : Document} {x y c p : NodeId} {a b l pre post : List NodeId}

def before (l : List NodeId) (x : NodeId) : Option NodeId :=
  ((l.takeWhile (· != x)).reverse).head?

def after (l : List NodeId) (x : NodeId) : Option NodeId :=
  ((l.dropWhile (· != x)).tail).head?

theorem before_append (h : x ∉ pre) : before (pre ++ x :: post) x = pre.getLast? := by
  have hpre : ∀ y ∈ pre, (y != x) = true := by
    intro y hy
    simpa using fun hyx : y = x => h (hyx ▸ hy)
  rw [before, List.takeWhile_append_of_pos hpre]
  simp [List.head?_reverse]

theorem after_append (h : x ∉ pre) : after (pre ++ x :: post) x = post.head? := by
  have hpre : ∀ y ∈ pre, (y != x) = true := by
    intro y hy
    simpa using fun hyx : y = x => h (hyx ▸ hy)
  rw [after, List.dropWhile_append_of_pos hpre]
  simp

theorem getLast?_ne (h : x ∉ a) : a.getLast? ≠ some x :=
  fun hx => h (List.mem_of_getLast? hx)

theorem head?_ne (h : x ∉ b) : b.head? ≠ some x :=
  fun hx => h (List.mem_of_mem_head? hx)

theorem not_mem_of_nodup (h : (pre ++ x :: post).Nodup) : x ∉ pre ∧ x ∉ post := by
  simpa using (List.nodup_cons.mp (List.nodup_middle.mp h)).1

theorem after_insert (hn : (a ++ c :: b).Nodup) (hx : x ∈ a ++ b) :
    after (a ++ c :: b) x = if a.getLast? = some x then some c else after (a ++ b) x := by
  rcases List.mem_append.mp hx with hx | hx
  · obtain ⟨a₁, a₂, rfl⟩ := List.append_of_mem hx
    simp only [List.append_assoc, List.cons_append] at hn ⊢
    obtain ⟨h₁, h₂⟩ := not_mem_of_nodup hn
    rw [after_append h₁, after_append h₁]
    cases a₂ with
    | nil => simp
    | cons y a₂ =>
        have hlast : (a₁ ++ x :: y :: a₂).getLast? ≠ some x := by
          rw [List.getLast?_append, List.getLast?_cons_cons]
          simpa using getLast?_ne fun h : x ∈ y :: a₂ => h₂ (List.mem_append_left _ h)
        rw [if_neg hlast]
        rfl
  · obtain ⟨b₁, b₂, rfl⟩ := List.append_of_mem hx
    rw [← List.cons_append, ← List.append_assoc] at hn
    obtain ⟨h₁, -⟩ := not_mem_of_nodup hn
    simp only [List.mem_append, List.mem_cons, not_or] at h₁
    rw [if_neg (getLast?_ne h₁.1), ← List.cons_append, ← List.append_assoc, ← List.append_assoc,
      after_append (by simp [h₁]), after_append (by simp [h₁])]

theorem before_insert (hn : (a ++ c :: b).Nodup) (hx : x ∈ a ++ b) :
    before (a ++ c :: b) x = if b.head? = some x then some c else before (a ++ b) x := by
  rcases List.mem_append.mp hx with hx | hx
  · obtain ⟨a₁, a₂, rfl⟩ := List.append_of_mem hx
    simp only [List.append_assoc, List.cons_append] at hn ⊢
    obtain ⟨h₁, h₂⟩ := not_mem_of_nodup hn
    rw [if_neg (head?_ne fun h => h₂ (by simp [h])), before_append h₁, before_append h₁]
  · obtain ⟨b₁, b₂, rfl⟩ := List.append_of_mem hx
    rw [← List.cons_append, ← List.append_assoc] at hn
    obtain ⟨h₁, -⟩ := not_mem_of_nodup hn
    rw [← List.cons_append, ← List.append_assoc, ← List.append_assoc, before_append h₁]
    simp only [List.mem_append, List.mem_cons, not_or] at h₁
    rw [before_append (by simp [h₁])]
    cases b₁ with
    | nil => simp
    | cons y b₁ =>
        have hne : y ≠ x := fun h => h₁.2.2 (by simp [h])
        simp [hne, List.getLast?_append]

theorem previousSibling?_eq : d.previousSibling? x = before (d.siblings x) x := rfl

theorem nextSibling?_eq : d.nextSibling? x = after (d.siblings x) x := rfl

theorem siblings_of_parent (hp : d.parent? x = some p) : d.siblings x = d.children p := by
  rw [siblings, hp]

theorem siblings_of_root (hp : d.parent? x = none) : d.siblings x = [] := by
  rw [siblings, hp]

theorem Linked.neighbors (h : d.Linked) (hc : d.children p = pre ++ x :: post) :
    d.previousSibling? x = pre.getLast? ∧ d.nextSibling? x = post.head? := by
  have hp : d.parent? x = some p := h.parent (hc ▸ List.mem_append_right pre List.mem_cons_self)
  have hx := (not_mem_of_nodup (hc ▸ h.nodup p)).1
  rw [previousSibling?_eq, nextSibling?_eq, siblings_of_parent hp, hc]
  exact ⟨before_append hx, after_append hx⟩

theorem Linked.exists_siblings (h : d.Linked) (hp : d.parent? x = some p) :
    ∃ pre post, d.children p = pre ++ x :: post :=
  List.append_of_mem (h.listed hp)

end Document

structure Links where
  contains : NodeId → Bool
  parent? : NodeId → Option NodeId
  firstChild? : NodeId → Option NodeId
  lastChild? : NodeId → Option NodeId
  previous? : NodeId → Option NodeId
  next? : NodeId → Option NodeId

namespace Links

inductive Walk (k : Links) : Option NodeId → List NodeId → Prop where
  | done : Walk k none []
  | step {x : NodeId} {l : List NodeId} : Walk k (k.next? x) l → Walk k (some x) (x :: l)

structure OrderedForest (k : Links) : Prop where
  row (p : NodeId) : ∃ l, k.Walk (k.firstChild? p) l ∧ l.Nodup ∧
    (∀ x, x ∈ l ↔ k.contains x = true ∧ k.parent? x = some p) ∧ k.lastChild? p = l.getLast?
  inverse (x y : NodeId) : k.next? x = some y ↔ k.previous? y = some x
  alone {x : NodeId} : k.parent? x = none → k.previous? x = none ∧ k.next? x = none
  acyclic (x : NodeId) : ¬Relation.TransGen (fun c p => k.parent? c = some p) x x
  live {x y : NodeId} : k.parent? x = some y ∨ k.firstChild? x = some y ∨
    k.lastChild? x = some y ∨ k.previous? x = some y ∨ k.next? x = some y → k.contains y = true

end Links

namespace Document

variable {d : Document} {x y c p : NodeId} {a b l pre post : List NodeId}

def links (d : Document) : Links where
  contains := d.contains
  parent? := d.parent?
  firstChild? := d.firstChild?
  lastChild? := d.lastChild?
  previous? := d.previousSibling?
  next? := d.nextSibling?

theorem Linked.walk (h : d.Linked) (hc : d.children p = pre ++ l) :
    d.links.Walk l.head? l := by
  induction l generalizing pre with
  | nil => exact .done
  | cons x l ih =>
      refine .step ?_
      have hnext : d.links.next? x = l.head? := (h.neighbors hc).2
      rw [hnext]
      have hrest : d.children p = (pre ++ [x]) ++ l := by simpa using hc
      exact ih hrest

theorem Linked.nextSibling?_iff (h : d.Linked) :
    d.nextSibling? x = some y ↔ ∃ p pre post, d.children p = pre ++ x :: y :: post := by
  constructor
  · intro hy
    cases hp : d.parent? x with
    | none => simp [nextSibling?_eq, siblings_of_root hp, after] at hy
    | some p =>
        obtain ⟨pre, post, hc⟩ := h.exists_siblings hp
        rw [(h.neighbors hc).2] at hy
        obtain ⟨post, rfl⟩ := List.head?_eq_some_iff.mp hy
        exact ⟨p, pre, post, hc⟩
  · rintro ⟨p, pre, post, hc⟩
    exact (h.neighbors hc).2

theorem Linked.previousSibling?_iff (h : d.Linked) :
    d.previousSibling? y = some x ↔ ∃ p pre post, d.children p = pre ++ x :: y :: post := by
  constructor
  · intro hx
    cases hp : d.parent? y with
    | none => simp [previousSibling?_eq, siblings_of_root hp, before] at hx
    | some p =>
        obtain ⟨pre, post, hc⟩ := h.exists_siblings hp
        rw [(h.neighbors hc).1] at hx
        obtain ⟨pre, rfl⟩ := List.getLast?_eq_some_iff.mp hx
        exact ⟨p, pre, post, by simpa using hc⟩
  · rintro ⟨p, pre, post, hc⟩
    have hsplit : d.children p = (pre ++ [x]) ++ y :: post := by simpa using hc
    rw [(h.neighbors hsplit).1]
    simp

theorem Linked.contains_child (h : d.Linked) (hx : x ∈ d.children p) : d.contains x = true :=
  contains_of_parent? (h.parent hx)

theorem Linked.orderedForest (h : d.Linked) : d.links.OrderedForest where
  row p := by
    have whole : d.children p = [] ++ d.children p := rfl
    refine ⟨d.children p, h.walk whole, h.nodup p, fun x => ?_, rfl⟩
    exact ⟨fun hx => ⟨h.contains_child hx, h.parent hx⟩, fun hx => h.listed hx.2⟩
  inverse x y := (h.nextSibling?_iff).trans h.previousSibling?_iff.symm
  alone {x} hp := by
    have hs := siblings_of_root hp
    constructor
    · change d.previousSibling? x = none
      rw [previousSibling?_eq, hs]
      rfl
    · change d.nextSibling? x = none
      rw [nextSibling?_eq, hs]
      rfl
  acyclic := h.rooted.acyclic
  live {x y} hy := by
    rcases hy with hp | hf | hl | hp | hn
    · exact h.contains_parent hp
    · exact h.contains_child (List.mem_of_mem_head? hf)
    · exact h.contains_child (List.mem_of_getLast? hl)
    · obtain ⟨p, pre, post, hc⟩ := h.previousSibling?_iff.mp hp
      have hmem : y ∈ d.children p := by simp [hc]
      exact h.contains_child hmem
    · obtain ⟨p, pre, post, hc⟩ := h.nextSibling?_iff.mp hn
      have hmem : y ∈ d.children p := by simp [hc]
      exact h.contains_child hmem

end Document

end CssStyling
