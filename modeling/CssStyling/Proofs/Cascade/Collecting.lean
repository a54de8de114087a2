import CssStyling.Proofs.Cascade.Splitting

namespace CssStyling

theorem Prevails.unique {p : Complex → Bool} {ss : List Complex} {s t : Complex} {i j : Nat}
    (h : Prevails p ss s i) (h' : Prevails p ss t j) : s = t := by
  have same := le_antisymm (h'.greatest h.found h.matching) (h.greatest h'.found h'.matching)
  simp only [EmbeddingLike.apply_eq_iff_eq, Prod.mk.injEq] at same
  obtain ⟨-, rfl⟩ := same
  exact Option.some.inj (h.found.symm.trans h'.found)

namespace MatchedRule

variable {c : MatchingContext} {d : Document} {e : NodeId} {m : MatchedRule} {rule : Rule}
  {rules : List Rule} {s : Complex} {ss : List Complex} {p : Complex → Bool} {i : Nat}

theorem mostSpecific?_iff : mostSpecific? (ss.filter p) = some s ↔ ∃ i, Prevails p ss s i := by
  refine ⟨exists_prevails, ?_⟩
  rintro ⟨i, prevails⟩
  have found : s ∈ ss.filter p :=
    List.mem_filter.mpr ⟨List.mem_of_getElem? prevails.found, prevails.matching⟩
  obtain ⟨t, ht⟩ : ∃ t, mostSpecific? (ss.filter p) = some t := by
    refine Option.ne_none_iff_exists'.mp fun hnone => ?_
    rw [mostSpecific?_eq_none.mp hnone] at found
    exact absurd found List.not_mem_nil
  obtain ⟨j, prevails'⟩ := exists_prevails ht
  rw [ht, prevails.unique prevails']

theorem exists_ofRule?_iff :
    (∃ m, ofRule? c d e i rule = some m) ↔ Matching.selectorList c d rule.selectors e = true := by
  rw [← Option.isSome_iff_exists, ofRule?, Option.isSome_map, Option.isSome_iff_ne_none, Ne,
    mostSpecific?_eq_none, List.filter_eq_nil_iff, Matching.selectorList, List.any_eq_true]
  push Not
  rfl

structure Stands (c : MatchingContext) (d : Document) (e : NodeId) (rules : List Rule)
    (m : MatchedRule) : Prop where
  rule : rules[m.order]? = some m.rule
  selector : ∃ i, Prevails (Matching.complex c d · e) m.rule.selectors.members m.selector i
  specificity : m.specificity = m.selector.specificity

theorem mem_collect_iff : m ∈ collect c d e rules ↔ Stands c d e rules m := by
  simp only [collect, mem_collectFrom, ofRule?_eq_some, mostSpecific?_iff, Nat.zero_add]
  constructor
  · rintro ⟨i, rule, hi, s, prevails, rfl⟩
    exact ⟨hi, prevails, rfl⟩
  · intro stands
    refine ⟨m.order, m.rule, stands.rule, m.selector, stands.selector, ?_⟩
    rw [← stands.specificity]

theorem exists_mem_collect_iff (hi : rules[i]? = some rule) :
    (∃ m ∈ collect c d e rules, m.order = i) ↔
      Matching.selectorList c d rule.selectors e = true := by
  rw [← exists_ofRule?_iff (i := i)]
  refine exists_congr fun m => ?_
  rw [collect, mem_collectFrom]
  constructor
  · rintro ⟨⟨j, rule', hj, hm⟩, horder⟩
    rw [Nat.zero_add] at hm
    obtain ⟨s, -, rfl⟩ := ofRule?_eq_some.mp hm
    obtain rfl : j = i := horder
    obtain rfl := Option.some.inj (hi.symm.trans hj)
    exact hm
  · intro hm
    refine ⟨⟨i, rule, hi, by rwa [Nat.zero_add]⟩, ?_⟩
    obtain ⟨s, -, rfl⟩ := ofRule?_eq_some.mp hm
    rfl

theorem collect_spec (c : MatchingContext) (d : Document) (e : NodeId) (rules : List Rule) :
    (collect c d e rules).Pairwise (fun m m' => m.order < m'.order) ∧
      (∀ m, m ∈ collect c d e rules ↔ Stands c d e rules m) ∧
      ∀ i rule, rules[i]? = some rule → ((∃ m ∈ collect c d e rules, m.order = i) ↔
        Matching.selectorList c d rule.selectors e = true) :=
  ⟨collectFrom_pairwise, fun _ => mem_collect_iff, fun _ _ => exists_mem_collect_iff⟩

end MatchedRule

end CssStyling
