import Mathlib.Data.List.Nodup
import Mathlib.Data.List.Perm.Subperm
import Mathlib.Logic.Relation

namespace CssStyling

variable {α : Type} {up up' : α → Option α} {a b : α} {l : List α}

inductive Lineage (up : α → Option α) : α → List α → Prop where
  | root {a : α} : up a = none → Lineage up a [a]
  | step {a b : α} {l : List α} : up a = some b → Lineage up b l → Lineage up a (a :: l)

def Rooted (up : α → Option α) : Prop :=
  ∀ a, ∃ l, Lineage up a l

namespace Lineage

theorem eq_cons (h : Lineage up a l) : ∃ t, l = a :: t := by
  cases h with
  | root => exact ⟨[], rfl⟩
  | step => exact ⟨_, rfl⟩

theorem mem_self (h : Lineage up a l) : a ∈ l := by
  obtain ⟨t, rfl⟩ := h.eq_cons
  simp

theorem length_pos (h : Lineage up a l) : 0 < l.length :=
  List.length_pos_of_mem h.mem_self

theorem unique {l' : List α} (h : Lineage up a l) (h' : Lineage up a l') : l = l' := by
  induction h generalizing l' with
  | root hn =>
      cases h' with
      | root => rfl
      | step hs => simp [hn] at hs
  | step hs _ ih =>
      cases h' with
      | root hn => simp [hs] at hn
      | step hs' ht =>
          obtain rfl : _ = _ := Option.some.inj (hs.symm.trans hs')
          rw [ih ht]

theorem of_parent (h : Lineage up a l) (hb : up a = some b) : ∃ t, l = a :: t ∧ Lineage up b t := by
  cases h with
  | root hn => simp [hn] at hb
  | step hs ht =>
      obtain rfl : _ = _ := Option.some.inj (hs.symm.trans hb)
      exact ⟨_, rfl, ht⟩

theorem exists_suffix (h : Lineage up a l) (hb : b ∈ l) : ∃ t, Lineage up b t ∧ t <:+ l := by
  induction h with
  | root hn =>
      obtain rfl := List.mem_singleton.mp hb
      exact ⟨_, .root hn, List.suffix_rfl⟩
  | step hs hl ih =>
      rcases List.mem_cons.mp hb with rfl | hb
      · exact ⟨_, .step hs hl, List.suffix_rfl⟩
      · obtain ⟨t, ht, hsuf⟩ := ih hb
        exact ⟨t, ht, hsuf.trans (List.suffix_cons _ _)⟩

theorem of_append {l' : List α} (h : Lineage up a (l ++ b :: l')) : Lineage up b (b :: l') := by
  induction l generalizing a with
  | nil =>
      obtain ⟨t, ht⟩ := h.eq_cons
      obtain ⟨rfl, _⟩ := List.cons.inj ht
      exact h
  | cons c l ih =>
      generalize hm : c :: l ++ b :: l' = m at h
      cases h with
      | root => simp at hm
      | step _ ht =>
          obtain ⟨_, rfl⟩ := List.cons.inj hm
          exact ih ht

theorem parent_of_append {c : α} {l' : List α} (h : Lineage up a (l ++ b :: c :: l')) :
    up b = some c := by
  cases h.of_append with
  | step hs ht =>
      obtain ⟨t, ht⟩ := ht.eq_cons
      rw [hs, (List.cons.inj ht).1]

theorem nodup (h : Lineage up a l) : l.Nodup := by
  induction h with
  | root => simp
  | step hs hl ih =>
      refine List.nodup_cons.mpr ⟨?_, ih⟩
      -- a second occurrence would be the head of a shorter lineage of the same thing
      intro hmem
      obtain ⟨t, ht, hsuf⟩ := hl.exists_suffix hmem
      have hlen := hsuf.length_le
      rw [ht.unique (.step hs hl), List.length_cons] at hlen
      omega

theorem congr (h : Lineage up a l) (hup : ∀ x ∈ l, up' x = up x) : Lineage up' a l := by
  induction h with
  | root hn => exact .root ((hup _ (by simp)).trans hn)
  | step hs _ ih =>
      exact .step ((hup _ (by simp)).trans hs) (ih fun x hx => hup x (by simp [hx]))

theorem mem_of_closed {P : α → Prop} (h : Lineage up a l) (ha : P a)
    (hup : ∀ x y, up x = some y → P y) : ∀ x ∈ l, P x := by
  induction h with
  | root => simpa using ha
  | step hs _ ih =>
      intro x hx
      rcases List.mem_cons.mp hx with rfl | hx
      · exact ha
      · exact ih (hup _ _ hs) x hx

theorem length_le_of_subset {l' : List α} (h : Lineage up a l) (hsub : l ⊆ l') :
    l.length ≤ l'.length :=
  (h.nodup.subperm hsub).length_le

theorem mem_tail_of_above (h : Lineage up a l)
    (hb : Relation.TransGen (fun c p => up c = some p) a b) : b ∈ l.tail := by
  induction hb using Relation.TransGen.head_induction_on generalizing l with
  | single hp =>
      obtain ⟨t, rfl, ht⟩ := h.of_parent hp
      exact ht.mem_self
  | head hp _ ih =>
      obtain ⟨t, rfl, ht⟩ := h.of_parent hp
      exact List.mem_of_mem_tail (ih ht)

theorem mem_iff_above (h : Lineage up a l) :
    b ∈ l ↔ Relation.ReflTransGen (fun c p => up c = some p) a b := by
  constructor
  · intro hb
    induction h with
    | root => exact List.mem_singleton.mp hb ▸ .refl
    | step hs _ ih =>
        rcases List.mem_cons.mp hb with rfl | hb
        · exact .refl
        · exact .head hs (ih hb)
  · intro hb
    rcases Relation.reflTransGen_iff_eq_or_transGen.mp hb with rfl | hb
    · exact h.mem_self
    · exact List.mem_of_mem_tail (h.mem_tail_of_above hb)

end Lineage

namespace Rooted

theorem acyclic (h : Rooted up) (a : α) :
    ¬Relation.TransGen (fun c p => up c = some p) a a := by
  intro ha
  obtain ⟨l, hl⟩ := h a
  obtain ⟨t, rfl⟩ := hl.eq_cons
  exact (List.nodup_cons.mp hl.nodup).1 (hl.mem_tail_of_above ha)

theorem congr (h : Rooted up) (hup : ∀ x, up' x = up x) : Rooted up' := by
  intro a
  obtain ⟨l, hl⟩ := h a
  exact ⟨l, hl.congr fun x _ => hup x⟩

theorem unlink (h : Rooted up) (hup : ∀ x, up' x = up x ∨ up' x = none) : Rooted up' := by
  intro a
  obtain ⟨l, hl⟩ := h a
  induction hl with
  | root hn =>
      refine ⟨_, .root ?_⟩
      rcases hup _ with he | he
      · exact he.trans hn
      · exact he
  | step hs _ ih =>
      rcases hup _ with he | he
      · obtain ⟨t, ht⟩ := ih
        exact ⟨_, .step (he.trans hs) ht⟩
      · exact ⟨_, .root he⟩

theorem relink (h : Rooted up) (ha : up' a = some b) (hup : ∀ x, x ≠ a → up' x = up x)
    (hb : ∀ l, Lineage up b l → a ∉ l) : Rooted up' := by
  obtain ⟨t, ht⟩ := h b
  have hab : Lineage up' a (a :: t) :=
    .step ha (ht.congr fun x hx => hup x (by rintro rfl; exact hb t ht hx))
  intro c
  obtain ⟨l, hl⟩ := h c
  induction hl with
  | @root c hn =>
      by_cases hc : c = a
      · exact ⟨_, hc ▸ hab⟩
      · exact ⟨_, .root ((hup c hc).trans hn)⟩
  | @step c d _ hs _ ih =>
      by_cases hc : c = a
      · exact ⟨_, hc ▸ hab⟩
      · obtain ⟨l, hl⟩ := ih
        exact ⟨_, .step ((hup c hc).trans hs) hl⟩

end Rooted

end CssStyling
