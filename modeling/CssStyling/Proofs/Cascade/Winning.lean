import CssStyling.Cascade
import Mathlib.Data.List.Induction
import Mathlib.Data.List.Nodup
import Mathlib.Data.Prod.Lex

namespace CssStyling

namespace Specificity

def key (s : Specificity) : ℕ ×ₗ ℕ ×ₗ ℕ :=
  toLex (s.ids, toLex (s.classes, s.types))

theorem compare_eq_lt {s t : Specificity} : compare s t = .lt ↔ s.key < t.key := by
  change cmp s t = .lt ↔ _
  simp only [cmp, key, Ordering.then_eq_lt, Prod.Lex.toLex_lt_toLex, Nat.compare_eq_lt,
    Nat.compare_eq_eq]

theorem compare_eq_eq {s t : Specificity} : compare s t = .eq ↔ s.key = t.key := by
  change cmp s t = .eq ↔ _
  simp [cmp, key, Ordering.then_eq_eq]

theorem compare_eq_gt {s t : Specificity} : compare s t = .gt ↔ t.key < s.key := by
  rw [← not_le, le_iff_lt_or_eq, ← compare_eq_lt, ← compare_eq_eq]
  cases compare s t <;> simp

end Specificity

namespace Origin

def ascending : List (Bool × Origin) :=
  [(false, userAgent), (false, user), (false, author), (false, inline),
    (true, author), (true, inline), (true, user), (true, userAgent)]

def standing (important : Bool) (origin : Origin) : ℕ :=
  ascending.idxOf (important, origin)

end Origin

namespace Declaration

theorem compare_level (d d' : Declaration) (o o' : Origin) :
    compareLex (compareOn Prod.fst) (compareOn Prod.snd) (d.level o) (d'.level o') =
      compare (o.standing d.important) (o'.standing d'.important) := by
  cases hd : d.important <;> cases hd' : d'.important <;> cases o <;> cases o' <;>
    simp only [level, hd, hd'] <;> decide

end Declaration

namespace Candidate

variable {c d : Candidate} {cs : List Candidate} {id : PropertyId} {r : PropertyRegistry}

def standing (c : Candidate) : ℕ :=
  c.matched.rule.origin.standing c.declaration.important

def rank (c : Candidate) : ℕ ×ₗ (ℕ ×ₗ ℕ ×ₗ ℕ) ×ₗ ℕ :=
  toLex (c.standing, toLex (c.matched.specificity.key, c.matched.order))

theorem compare_eq_lt : compare c d = .lt ↔ c.rank < d.rank := by
  change cmp c d = .lt ↔ _
  simp only [cmp, level, Declaration.compare_level, rank, standing, Ordering.then_eq_lt,
    Prod.Lex.toLex_lt_toLex, Nat.compare_eq_lt, Nat.compare_eq_eq, Specificity.compare_eq_lt,
    Specificity.compare_eq_eq]

def LastBest (cs : List Candidate) (c : Candidate) : Prop :=
  ∃ before after, cs = before ++ c :: after ∧ (∀ d ∈ before, d.rank ≤ c.rank) ∧
    ∀ d ∈ after, d.rank < c.rank

theorem LastBest.append_lower (h : LastBest cs c) (hd : d.rank < c.rank) :
    LastBest (cs ++ [d]) c := by
  obtain ⟨before, after, rfl, hb, ha⟩ := h
  refine ⟨before, after ++ [d], by simp, hb, fun x hx => ?_⟩
  rcases List.mem_append.mp hx with hx | hx
  · exact ha x hx
  · exact List.mem_singleton.mp hx ▸ hd

theorem LastBest.append_best (h : LastBest cs c) (hd : c.rank ≤ d.rank) :
    LastBest (cs ++ [d]) d := by
  obtain ⟨before, after, rfl, hb, ha⟩ := h
  refine ⟨before ++ c :: after, [], rfl, fun x hx => le_trans ?_ hd, by simp⟩
  rcases List.mem_append.mp hx with hx | hx
  · exact hb x hx
  · rcases List.mem_cons.mp hx with rfl | hx
    · exact le_rfl
    · exact le_of_lt (ha x hx)

theorem best?_spec (cs : List Candidate) :
    (best? cs = none ∧ cs = []) ∨ ∃ c, best? cs = some c ∧ LastBest cs c := by
  induction cs using List.reverseRecOn with
  | nil => exact .inl ⟨rfl, rfl⟩
  | append_singleton cs d ih =>
      have hlast : best? (cs ++ [d]) = better (best? cs) d := by simp [best?]
      right
      rcases ih with ⟨hnone, rfl⟩ | ⟨c, hc, hbest⟩
      · exact ⟨d, by rw [hlast, hnone]; rfl, [], [], rfl, by simp, by simp⟩
      · rw [hlast, hc]
        simp only [better]
        split
        · rename_i hlt
          exact ⟨c, rfl, hbest.append_lower (compare_eq_lt.mp hlt)⟩
        · rename_i hlt
          exact ⟨d, rfl, hbest.append_best (le_of_not_gt fun h => hlt (compare_eq_lt.mpr h))⟩

theorem winner?_eligible :
    winner? (eligible r cs) id = best? (cs.filter fun c => c.property? r == some id) := by
  have hfilter : ((eligible r cs).filter (·.1 == id)).map Prod.snd =
      cs.filter fun c => c.property? r == some id := by
    induction cs with
    | nil => rfl
    | cons c cs ih =>
        simp only [eligible, List.filterMap_cons, List.filter_cons] at ih ⊢
        cases hp : c.property? r with
        | none => simpa using ih
        | some j =>
            by_cases hj : j = id
            · simp [hj, ih]
            · simp [hj, ih]
  rw [winner?, hfilter]

theorem property?_eq_some : c.property? r = some id ↔
    r.id? c.declaration.property = some id ∧
      ∃ p, r.get? id = some p ∧ p.check c.declaration.value = .ok () := by
  have accepts (p : PropertyDefinition) :
      (p.check c.declaration.value).isOk = true ↔ p.check c.declaration.value = .ok () := by
    cases p.check c.declaration.value <;> simp [Except.isOk, Except.toBool]
  simp only [property?, Option.filter_eq_some_iff, Option.any_eq_true, accepts]

end Candidate

structure Place where
  matched : MatchedRule
  position : Nat
  declaration : Declaration

namespace Place

variable {p q : Place} {matched : List MatchedRule} {r : PropertyRegistry} {id : PropertyId}

def candidate (p : Place) : Candidate :=
  ⟨p.declaration, p.matched⟩

def key (p : Place) : ℕ ×ₗ (ℕ ×ₗ ℕ ×ₗ ℕ) ×ₗ ℕ ×ₗ ℕ :=
  toLex (p.matched.rule.origin.standing p.declaration.important,
    toLex (p.matched.specificity.key, toLex (p.matched.order, p.position)))

theorem key_lt_of_rank (h : p.candidate.rank < q.candidate.rank) : p.key < q.key := by
  simp only [Candidate.rank, Candidate.standing, candidate, key, Prod.Lex.toLex_lt_toLex] at h ⊢
  rcases h with h | ⟨hl, h | ⟨hs, h⟩⟩
  · exact .inl h
  · exact .inr ⟨hl, .inl h⟩
  · exact .inr ⟨hl, .inr ⟨hs, .inl h⟩⟩

theorem key_le_of_rank_eq (h : p.candidate.rank = q.candidate.rank)
    (hp : p.position ≤ q.position) : p.key ≤ q.key := by
  simp only [Candidate.rank, Candidate.standing, candidate, key, EmbeddingLike.apply_eq_iff_eq, Prod.mk.injEq,
    Prod.Lex.toLex_le_toLex] at h ⊢
  obtain ⟨hl, hs, ho⟩ := h
  exact .inr ⟨hl, .inr ⟨hs, .inr ⟨ho, hp⟩⟩⟩

def all (matched : List MatchedRule) : List Place :=
  matched.flatMap fun m => m.rule.declarations.zipIdx.map fun d => ⟨m, d.2, d.1⟩

theorem mem_all : p ∈ all matched ↔
    p.matched ∈ matched ∧ p.matched.rule.declarations[p.position]? = some p.declaration := by
  simp only [all, List.mem_flatMap, List.mem_map, Prod.exists, List.mem_zipIdx_iff_getElem?]
  constructor
  · rintro ⟨m, hm, d, i, hd, rfl⟩
    exact ⟨hm, hd⟩
  · rintro ⟨hm, hd⟩
    exact ⟨p.matched, hm, p.declaration, p.position, hd, rfl⟩

theorem ofMatched_eq : Candidate.ofMatched matched = (all matched).map candidate := by
  rw [Candidate.ofMatched, all, List.map_flatMap]
  congr 1
  funext m
  have hfst := List.zipIdx_map_fst 0 m.rule.declarations
  conv_lhs => rw [← hfst]
  simp only [List.map_map]
  rfl

theorem all_pairwise (h : (matched.map (·.order)).Nodup) :
    (all matched).Pairwise fun p q => p.matched.order = q.matched.order →
      p.position < q.position := by
  refine List.pairwise_flatMap.mpr ⟨fun m _ => ?_, ?_⟩
  · have hsnd : (m.rule.declarations.zipIdx.map Prod.snd).Pairwise (· < ·) := by
      rw [List.zipIdx_map_snd]
      exact List.pairwise_lt_range'
    rw [List.pairwise_map] at hsnd ⊢
    refine hsnd.imp ?_
    intro d d' hlt _
    exact hlt
  · refine (List.pairwise_map.mp h).imp fun {m m'} hne => ?_
    intro p hp q hq ho
    obtain ⟨_, _, rfl⟩ := List.mem_map.mp hp
    obtain ⟨_, _, rfl⟩ := List.mem_map.mp hq
    exact absurd ho hne

structure Contends (r : PropertyRegistry) (matched : List MatchedRule) (id : PropertyId)
    (p : Place) : Prop where
  mem : p.matched ∈ matched
  declared : p.matched.rule.declarations[p.position]? = some p.declaration
  named : r.id? p.declaration.property = some id
  accepted : ∃ d, r.get? id = some d ∧ d.check p.declaration.value = .ok ()

structure Wins (r : PropertyRegistry) (matched : List MatchedRule) (id : PropertyId)
    (p : Place) : Prop extends Contends r matched id p where
  highest {q : Place} : Contends r matched id q → q.key ≤ p.key

theorem contends_iff : Contends r matched id p ↔
    p ∈ all matched ∧ p.candidate.property? r = some id := by
  rw [mem_all, Candidate.property?_eq_some]
  exact ⟨fun h => ⟨⟨h.mem, h.declared⟩, h.named, h.accepted⟩,
    fun ⟨⟨hm, hd⟩, hn, ha⟩ => ⟨hm, hd, hn, ha⟩⟩

theorem winner?_spec (h : (matched.map (·.order)).Nodup) (id : PropertyId) :
    (Candidate.winner? (Candidate.eligible r (Candidate.ofMatched matched)) id = none ∧
      ∀ p, ¬Contends r matched id p) ∨
    ∃ p, Candidate.winner? (Candidate.eligible r (Candidate.ofMatched matched)) id =
      some p.candidate ∧ Wins r matched id p := by
  have hordered := (all_pairwise h).filter fun p => p.candidate.property? r == some id
  have hcontends (p : Place) : Contends r matched id p ↔
      p ∈ (all matched).filter fun p => p.candidate.property? r == some id := by
    simp [contends_iff]
  have hwinner : Candidate.winner? (Candidate.eligible r (Candidate.ofMatched matched)) id =
      Candidate.best? (((all matched).filter fun p => p.candidate.property? r == some id).map
        candidate) := by
    rw [Candidate.winner?_eligible, ofMatched_eq, List.filter_map]
    rfl
  rw [hwinner]
  generalize (all matched).filter (fun p => p.candidate.property? r == some id) = places at *
  rcases Candidate.best?_spec (places.map candidate) with ⟨hnone, hnil⟩ | ⟨c, hc, hbest⟩
  · obtain rfl := List.map_eq_nil_iff.mp hnil
    exact .inl ⟨hnone, fun p hp => by simpa using (hcontends p).mp hp⟩
  · obtain ⟨before, after, hsplit, hb, ha⟩ := hbest
    obtain ⟨before, rest, rfl, rfl, hrest⟩ := List.map_eq_append_iff.mp hsplit
    obtain ⟨p, after, rfl, rfl, rfl⟩ := List.map_eq_cons_iff.mp hrest
    refine .inr ⟨p, hc, (hcontends p).mpr (by simp), fun {q} hq => ?_⟩
    rcases List.mem_append.mp ((hcontends q).mp hq) with hq | hq
    · rcases lt_or_eq_of_le (hb _ (List.mem_map_of_mem hq)) with hlt | heq
      · exact le_of_lt (key_lt_of_rank hlt)
      -- equal up to the order, so of one rule, where the earlier one is listed first
      · have hqp := (List.pairwise_append.mp hordered).2.2 q hq p List.mem_cons_self
        refine key_le_of_rank_eq heq (le_of_lt (hqp ?_))
        simp only [Candidate.rank, candidate, EmbeddingLike.apply_eq_iff_eq, Prod.mk.injEq] at heq
        exact heq.2.2
    · rcases List.mem_cons.mp hq with rfl | hq
      · exact le_rfl
      · exact le_of_lt (key_lt_of_rank (ha _ (List.mem_map_of_mem hq)))

theorem Wins.unique (h : (matched.map (·.order)).Nodup) (hp : Wins r matched id p)
    (hq : Wins r matched id q) : p = q := by
  have hkey := le_antisymm (hq.highest hp.toContends) (hp.highest hq.toContends)
  simp only [key, EmbeddingLike.apply_eq_iff_eq, Prod.mk.injEq] at hkey
  obtain ⟨_, _, ho, hpos⟩ := hkey
  have hm : p.matched = q.matched := List.inj_on_of_nodup_map h hp.mem hq.mem ho
  have hd := hp.declared
  rw [hm, hpos, hq.declared] at hd
  cases p
  cases q
  simp_all

end Place

end CssStyling
