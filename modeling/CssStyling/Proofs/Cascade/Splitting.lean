import CssStyling.Proofs.Cascade.Passes

namespace CssStyling

namespace Rule

def split (rule : Rule) : List Rule :=
  rule.selectors.members.map fun s => { rule with selectors := ⟨[s]⟩ }

end Rule

structure Prevails (p : Complex → Bool) (ss : List Complex) (s : Complex) (i : Nat) : Prop where
  found : ss[i]? = some s
  matching : p s = true
  greatest {t : Complex} {j : Nat} : ss[j]? = some t → p t = true →
    toLex (t.specificity.key, j) ≤ toLex (s.specificity.key, i)

namespace Prevails

variable {p : Complex → Bool} {ss : List Complex} {a s : Complex} {i : Nat}

theorem head (ha : p a = true)
    (h : ∀ t ∈ ss, p t = true → t.specificity.key < a.specificity.key) :
    Prevails p (a :: ss) a 0 where
  found := rfl
  matching := ha
  greatest {t j} hj ht := by
    cases j with
    | zero =>
        obtain rfl := Option.some.inj hj
        exact le_rfl
    | succ j =>
        exact Prod.Lex.toLex_le_toLex.mpr (.inl (h t (List.mem_of_getElem? hj) ht))

theorem cons (h : Prevails p ss s i)
    (ha : p a = true → a.specificity.key ≤ s.specificity.key) :
    Prevails p (a :: ss) s (i + 1) where
  found := h.found
  matching := h.matching
  greatest {t j} hj ht := by
    rw [Prod.Lex.toLex_le_toLex]
    cases j with
    | zero =>
        obtain rfl := Option.some.inj hj
        exact (lt_or_eq_of_le (ha ht)).imp_right fun heq => ⟨heq, Nat.zero_le _⟩
    | succ j =>
        have hle := Prod.Lex.toLex_le_toLex.mp (h.greatest hj ht)
        exact hle.imp_right fun heq => ⟨heq.1, Nat.succ_le_succ heq.2⟩

theorem key_le {t : Complex} {j : Nat} (h : Prevails p ss s i) (hj : ss[j]? = some t)
    (ht : p t = true) : t.specificity.key ≤ s.specificity.key :=
  (Prod.Lex.toLex_le_toLex.mp (h.greatest hj ht)).elim le_of_lt fun heq => le_of_eq heq.1

end Prevails

namespace MatchedRule

variable {c : MatchingContext} {d : Document} {e : NodeId} {m : MatchedRule} {rule : Rule}
  {rules before after : List Rule} {s : Complex} {ss : List Complex} {p : Complex → Bool}
  {n i j : Nat}

theorem mostSpecific?_eq_none : mostSpecific? ss = none ↔ ss = [] := by
  cases ss with
  | nil => simp [mostSpecific?]
  | cons s ss =>
      rw [mostSpecific?]
      cases mostSpecific? ss with
      | none => simp
      | some t =>
          simp only [reduceCtorEq, iff_false]
          split <;> simp

theorem exists_prevails (h : mostSpecific? (ss.filter p) = some s) : ∃ i, Prevails p ss s i := by
  induction ss generalizing s with
  | nil => cases h
  | cons a ss ih =>
      by_cases ha : p a = true
      · rw [List.filter_cons_of_pos ha, mostSpecific?] at h
        cases ht : mostSpecific? (ss.filter p) with
        | none =>
            simp only [ht] at h
            obtain rfl := Option.some.inj h
            have none_matches := List.filter_eq_nil_iff.mp (mostSpecific?_eq_none.mp ht)
            exact ⟨0, .head ha fun t hmem hp => absurd hp (none_matches t hmem)⟩
        | some t =>
            obtain ⟨i, prevails⟩ := ih ht
            simp only [ht] at h
            split at h
            · rename_i hgt
              obtain rfl := Option.some.inj h
              have hlt := Specificity.compare_eq_gt.mp hgt
              refine ⟨0, .head ha fun u hmem hp => ?_⟩
              obtain ⟨j, hj⟩ := List.mem_iff_getElem?.mp hmem
              exact (prevails.key_le hj hp).trans_lt hlt
            · rename_i hgt
              obtain rfl := Option.some.inj h
              exact ⟨i + 1, prevails.cons fun _ =>
                le_of_not_gt fun hlt => hgt (Specificity.compare_eq_gt.mpr hlt)⟩
      · rw [List.filter_cons_of_neg ha] at h
        obtain ⟨i, prevails⟩ := ih h
        exact ⟨i + 1, prevails.cons fun hp => absurd hp ha⟩

theorem ofRule?_eq_some : ofRule? c d e i rule = some m ↔ ∃ s,
    mostSpecific? (rule.selectors.members.filter (Matching.complex c d · e)) = some s ∧
      m = ⟨rule, s, s.specificity, i⟩ := by
  rw [ofRule?, Option.map_eq_some_iff]
  exact exists_congr fun s => and_congr_right fun _ => eq_comm

theorem mem_collectFrom : m ∈ collectFrom c d e n rules ↔
    ∃ i rule, rules[i]? = some rule ∧ ofRule? c d e (n + i) rule = some m := by
  induction rules generalizing n with
  | nil => simp [collectFrom]
  | cons rule rules ih =>
      rw [collectFrom, List.mem_append, Option.mem_toList, ih]
      constructor
      · rintro (h | ⟨i, rule', hi, h⟩)
        · exact ⟨0, rule, rfl, h⟩
        · exact ⟨i + 1, rule', hi, by rwa [Nat.add_right_comm, Nat.add_assoc] at h⟩
      · rintro ⟨i, rule', hi, h⟩
        cases i with
        | zero =>
            obtain rfl := Option.some.inj hi
            exact .inl h
        | succ i => exact .inr ⟨i, rule', hi, by rwa [Nat.add_right_comm, Nat.add_assoc]⟩

theorem collectFrom_pairwise :
    (collectFrom c d e n rules).Pairwise fun m m' => m.order < m'.order := by
  induction rules generalizing n with
  | nil => exact .nil
  | cons rule rules ih =>
      refine List.pairwise_append.mpr ⟨?_, ih, fun m hm m' hm' => ?_⟩
      · cases ofRule? c d e n rule <;> simp
      · obtain ⟨s, -, rfl⟩ := ofRule?_eq_some.mp (Option.mem_toList.mp hm)
        obtain ⟨i, rule', -, h⟩ := mem_collectFrom.mp hm'
        obtain ⟨t, -, rfl⟩ := ofRule?_eq_some.mp h
        simp only
        omega

theorem nodup_collect : ((collect c d e rules).map (·.order)).Nodup :=
  List.pairwise_map.mpr (collectFrom_pairwise.imp Nat.ne_of_lt)

structure Alike (m m' : MatchedRule) : Prop where
  declarations : m'.rule.declarations = m.rule.declarations
  provenance : m'.provenance = m.provenance
  specificity : m'.specificity = m.specificity

structure Reorders (σ : Nat → Nat) (matched matched' : List MatchedRule) : Prop where
  increasing {m m' : MatchedRule} : m ∈ matched → m' ∈ matched → m.order < m'.order →
    σ m.order < σ m'.order
  again {m : MatchedRule} : m ∈ matched → ∃ m' ∈ matched', Alike m m' ∧ m'.order = σ m.order
  dominated {m' : MatchedRule} : m' ∈ matched' → ∃ m ∈ matched,
    m'.rule.declarations = m.rule.declarations ∧ m'.rule.origin = m.rule.origin ∧
      toLex (m'.specificity.key, m'.order) ≤ toLex (m.specificity.key, σ m.order)

theorem collectFrom_append : collectFrom c d e n (before ++ rules) =
    collectFrom c d e n before ++ collectFrom c d e (n + before.length) rules := by
  induction before generalizing n with
  | nil => rfl
  | cons rule before ih =>
      rw [List.cons_append, collectFrom, collectFrom, ih, List.append_assoc, List.length_cons,
        Nat.add_right_comm, Nat.add_assoc]

theorem order_of_collectFrom (h : m ∈ collectFrom c d e n rules) :
    n ≤ m.order ∧ m.order < n + rules.length := by
  obtain ⟨i, rule, hi, hm⟩ := mem_collectFrom.mp h
  obtain ⟨s, -, rfl⟩ := ofRule?_eq_some.mp hm
  have hlt := (List.getElem?_eq_some_iff.mp hi).1
  simp only
  omega

theorem collectFrom_shift (h : m ∈ collectFrom c d e n rules) (n' : Nat) :
    ∃ m' ∈ collectFrom c d e n' rules, Alike m m' ∧ m'.order + n = m.order + n' := by
  obtain ⟨i, rule, hi, hm⟩ := mem_collectFrom.mp h
  obtain ⟨s, hs, rfl⟩ := ofRule?_eq_some.mp hm
  refine ⟨⟨rule, s, s.specificity, n' + i⟩, ?_, ⟨rfl, rfl, rfl⟩, by simp only; omega⟩
  exact mem_collectFrom.mpr ⟨i, rule, hi, ofRule?_eq_some.mpr ⟨s, hs, rfl⟩⟩

theorem mem_collectFrom_split : m ∈ collectFrom c d e n rule.split ↔
    ∃ i s, rule.selectors.members[i]? = some s ∧ Matching.complex c d s e = true ∧
      m = ⟨{ rule with selectors := ⟨[s]⟩ }, s, s.specificity, n + i⟩ := by
  have single (s : Complex) (i : Nat) :
      ofRule? c d e i { rule with selectors := ⟨[s]⟩ } = some m ↔
        Matching.complex c d s e = true ∧
          m = ⟨{ rule with selectors := ⟨[s]⟩ }, s, s.specificity, i⟩ := by
    rw [ofRule?_eq_some]
    by_cases hs : Matching.complex c d s e = true
    · simp [hs, mostSpecific?]
    · simp [hs, mostSpecific?]
  rw [mem_collectFrom]
  constructor
  · rintro ⟨i, _, hi, hm⟩
    rw [Rule.split, List.getElem?_map, Option.map_eq_some_iff] at hi
    obtain ⟨s, hs, rfl⟩ := hi
    exact ⟨i, s, hs, (single s _).mp hm⟩
  · rintro ⟨i, s, hi, hm⟩
    refine ⟨i, _, ?_, (single s _).mpr hm⟩
    rw [Rule.split, List.getElem?_map, hi, Option.map_some]

def room (n j k i : Nat) : Nat :=
  if i < n then i else if i = n then n + j else i + k - 1

theorem room_lt_room {k i' : Nat} (hi : i = n → j < k) (h : i < i') :
    room n j k i < room n j k i' := by
  unfold room
  split_ifs <;> omega

theorem mem_collect_around : m ∈ collect c d e (before ++ rule :: after) ↔
    m ∈ collectFrom c d e 0 before ∨ ofRule? c d e before.length rule = some m ∨
      m ∈ collectFrom c d e (before.length + 1) after := by
  rw [collect, collectFrom_append, Nat.zero_add, collectFrom, List.mem_append, List.mem_append,
    Option.mem_toList]

theorem mem_collect_split : m ∈ collect c d e (before ++ rule.split ++ after) ↔
    m ∈ collectFrom c d e 0 before ∨ m ∈ collectFrom c d e before.length rule.split ∨
      m ∈ collectFrom c d e (before.length + rule.selectors.members.length) after := by
  rw [collect, List.append_assoc, collectFrom_append, collectFrom_append, Nat.zero_add,
    List.mem_append, List.mem_append, Rule.split, List.length_map]

theorem split_reorders (before after : List Rule)
    (hj : ∀ s, mostSpecific? (rule.selectors.members.filter (Matching.complex c d · e)) = some s →
      Prevails (Matching.complex c d · e) rule.selectors.members s j) :
    Reorders (room before.length j rule.selectors.members.length)
      (collect c d e (before ++ rule :: after))
      (collect c d e (before ++ rule.split ++ after)) where
  increasing {m m'} hm _ hlt := by
    refine room_lt_room (fun horder => ?_) hlt
    rcases mem_collect_around.mp hm with hm | hm | hm
    · have bounds := order_of_collectFrom hm
      omega
    · obtain ⟨s, hs, -⟩ := ofRule?_eq_some.mp hm
      exact (List.getElem?_eq_some_iff.mp (hj s hs).found).1
    · have bounds := order_of_collectFrom hm
      omega
  again {m} hm := by
    rcases mem_collect_around.mp hm with hm | hm | hm
    · have bounds := order_of_collectFrom hm
      refine ⟨m, mem_collect_split.mpr (.inl hm), ⟨rfl, rfl, rfl⟩, ?_⟩
      rw [room, if_pos (by omega)]
    · obtain ⟨s, hs, rfl⟩ := ofRule?_eq_some.mp hm
      have member := mem_collectFrom_split (n := before.length) |>.mpr
        ⟨j, s, (hj s hs).found, (hj s hs).matching, rfl⟩
      refine ⟨_, mem_collect_split.mpr (.inr (.inl member)), ⟨rfl, rfl, rfl⟩, ?_⟩
      simp [room]
    · have bounds := order_of_collectFrom hm
      obtain ⟨m', hm', alike, order⟩ :=
        collectFrom_shift hm (before.length + rule.selectors.members.length)
      refine ⟨m', mem_collect_split.mpr (.inr (.inr hm')), alike, ?_⟩
      rw [room, if_neg (by omega), if_neg (by omega)]
      omega
  dominated {m'} hm' := by
    rcases mem_collect_split.mp hm' with hm' | hm' | hm'
    · have bounds := order_of_collectFrom hm'
      refine ⟨m', mem_collect_around.mpr (.inl hm'), rfl, rfl, ?_⟩
      rw [room, if_pos (by omega)]
    · obtain ⟨i, t, ht, hmatch, rfl⟩ := mem_collectFrom_split.mp hm'
      have some_matches : mostSpecific? (rule.selectors.members.filter
          (Matching.complex c d · e)) ≠ none := by
        rw [Ne, mostSpecific?_eq_none, List.filter_eq_nil_iff]
        exact fun hnone => hnone t (List.mem_of_getElem? ht) hmatch
      obtain ⟨s, hs⟩ := Option.ne_none_iff_exists'.mp some_matches
      refine ⟨_, mem_collect_around.mpr (.inr (.inl (ofRule?_eq_some.mpr ⟨s, hs, rfl⟩))), rfl, rfl,
        ?_⟩
      have greatest := Prod.Lex.toLex_le_toLex.mp ((hj s hs).greatest ht hmatch)
      rw [room, if_neg (Nat.lt_irrefl _), if_pos rfl, Prod.Lex.toLex_le_toLex]
      exact greatest.imp_right fun h => ⟨h.1, Nat.add_le_add_left h.2 _⟩
    · have bounds := order_of_collectFrom hm'
      obtain ⟨m, hm, alike, order⟩ := collectFrom_shift hm' (before.length + 1)
      refine ⟨m, mem_collect_around.mpr (.inr (.inr hm)), alike.declarations.symm,
        (congrArg Provenance.origin alike.provenance).symm, ?_⟩
      rw [alike.specificity, room, if_neg (by omega), if_neg (by omega)]
      exact Prod.Lex.toLex_le_toLex.mpr (.inr ⟨rfl, by dsimp only; omega⟩)

theorem exists_reorders (c : MatchingContext) (d : Document) (e : NodeId)
    (before after : List Rule) (rule : Rule) :
    ∃ σ, Reorders σ (collect c d e (before ++ rule :: after))
      (collect c d e (before ++ rule.split ++ after)) := by
  cases hs : mostSpecific? (rule.selectors.members.filter (Matching.complex c d · e)) with
  | none => exact ⟨_, split_reorders (j := 0) before after fun s h => by simp [hs] at h⟩
  | some s =>
      obtain ⟨j, prevails⟩ := exists_prevails hs
      refine ⟨_, split_reorders before after (j := j) fun t ht => ?_⟩
      obtain rfl := Option.some.inj (hs.symm.trans ht)
      exact prevails

end MatchedRule

namespace Place

variable {r : PropertyRegistry} {id : PropertyId} {matched matched' : List MatchedRule}
  {p q : Place} {σ : Nat → Nat}

theorem key_le_key : p.key ≤ q.key ↔ p.candidate.standing < q.candidate.standing ∨
    p.candidate.standing = q.candidate.standing ∧
      (p.matched.specificity.key < q.matched.specificity.key ∨
        p.matched.specificity.key = q.matched.specificity.key ∧
          (p.matched.order < q.matched.order ∨
            p.matched.order = q.matched.order ∧ p.position ≤ q.position)) := by
  simp only [key, Candidate.standing, candidate, Prod.Lex.toLex_le_toLex]

theorem standing_congr (hd : q.declaration = p.declaration)
    (ho : q.matched.rule.origin = p.matched.rule.origin) :
    q.candidate.standing = p.candidate.standing := by
  simp only [Candidate.standing, candidate, hd, ho]

theorem Contends.moved (h : p.Contends r matched id) {m : MatchedRule} (hm : m ∈ matched')
    (hd : m.rule.declarations = p.matched.rule.declarations) :
    Contends r matched' id ⟨m, p.position, p.declaration⟩ :=
  ⟨hm, (congrArg (·[p.position]?) hd).trans h.declared, h.named, h.accepted⟩

theorem Wins.reordered (h : MatchedRule.Reorders σ matched matched')
    (hp : p.Wins r matched id) :
    ∃ m, p.matched.Alike m ∧ Wins r matched' id ⟨m, p.position, p.declaration⟩ := by
  obtain ⟨m, hm, alike, order⟩ := h.again hp.mem
  have origin : m.rule.origin = p.matched.rule.origin := congrArg Provenance.origin alike.provenance
  refine ⟨m, alike, hp.toContends.moved hm alike.declarations, fun {q'} hq' => ?_⟩
  obtain ⟨n, hmem, declarations, origin', hle⟩ := h.dominated hq'.mem
  have hq : Contends r matched id ⟨n, q'.position, q'.declaration⟩ :=
    hq'.moved hmem declarations.symm
  have standing := standing_congr (p := ⟨n, q'.position, q'.declaration⟩) (q := q') rfl origin'
  have standing' := standing_congr (p := p) (q := ⟨m, p.position, p.declaration⟩) rfl origin
  have below := key_le_key.mp (hp.highest hq)
  rw [key_le_key, standing, standing', alike.specificity, order]
  refine below.imp_right fun ⟨hstanding, below⟩ => ⟨hstanding, ?_⟩
  rcases Prod.Lex.toLex_le_toLex.mp hle with hlt | ⟨heq, hle⟩
  · exact .inl (hlt.trans_le (below.elim le_of_lt fun h => le_of_eq h.1))
  · refine below.imp heq.trans_lt fun ⟨hsame, below⟩ => ⟨heq.trans hsame, ?_⟩
    rcases below with hlt | ⟨horder, hpos⟩
    · exact .inl (hle.trans_lt (h.increasing hmem hp.mem hlt))
    · exact (lt_or_eq_of_le (horder ▸ hle)).imp_right fun hsame => ⟨hsame, hpos⟩

end Place

namespace StyleM

open MatchedRule

variable {r : PropertyRegistry} {id : PropertyId} {matched matched' : List MatchedRule}
  {σ : Nat → Nat} {e : NodeId} {c : MatchingContext} {d : Document} {rules rules' : List Rule}
  {winner winner' : PropertyId → Option Candidate} {top : NodeId}

def writing (c : Candidate) : String × PropertySlot :=
  (c.declaration.property, c.source)

theorem winning_reordered (h : Reorders σ matched matched')
    (hn : (matched.map (·.order)).Nodup) (hn' : (matched'.map (·.order)).Nodup) :
    (winning r matched id).map writing = (winning r matched' id).map writing := by
  rcases Place.winner?_spec (r := r) hn id with ⟨hnone, uncontested⟩ | ⟨p, hp, wins⟩
  · rcases Place.winner?_spec (r := r) hn' id with ⟨hnone', -⟩ | ⟨q, -, wins⟩
    · rw [winning, winning, hnone, hnone']
    · obtain ⟨m, hm, declarations, -⟩ := h.dominated wins.mem
      exact absurd (wins.toContends.moved hm declarations.symm) (uncontested _)
  · obtain ⟨m, alike, wins'⟩ := wins.reordered h
    rcases Place.winner?_spec (r := r) hn' id with ⟨-, uncontested⟩ | ⟨q, hq, hwins⟩
    · exact absurd wins'.toContends (uncontested _)
    · obtain rfl := hwins.unique hn' wins'
      rw [winning, winning, hp, hq]
      simp only [Option.map_some, writing, Candidate.source, Place.candidate, alike.provenance]

theorem overwriteAll_congr (h : ∀ id, (winner id).map writing = (winner' id).map writing)
    (ids : List PropertyId) :
    overwriteAll e (ids.filterMap winner) = overwriteAll e (ids.filterMap winner') := by
  induction ids with
  | nil => rfl
  | cons id ids ih =>
      have hid := h id
      cases hw : winner id with
      | none =>
          have hw' : winner' id = none := by simpa [hw] using hid.symm
          rw [List.filterMap_cons_none hw, List.filterMap_cons_none hw', ih]
      | some w =>
          obtain ⟨w', hw', hsame⟩ := Option.map_eq_some_iff.mp (hid.symm.trans (by rw [hw]; rfl))
          obtain ⟨property, source⟩ := Prod.mk.inj hsame
          rw [List.filterMap_cons_some hw, List.filterMap_cons_some hw', overwriteAll,
            overwriteAll, ih, property, source]

theorem applyMatched_congr
    (h : ∀ r id, (winning r matched id).map writing = (winning r matched' id).map writing) :
    applyMatched e matched = applyMatched e matched' := by
  have same (s : Store) : (do
      let n ← resetAll e ((ruled s e).filter fun id => (winning s.registry matched id).isNone)
      let m ← overwriteAll e ((List.range s.registry.size).filterMap (winning s.registry matched))
      return n + m) = (do
      let n ← resetAll e ((ruled s e).filter fun id => (winning s.registry matched' id).isNone)
      let m ← overwriteAll e ((List.range s.registry.size).filterMap (winning s.registry matched'))
      return n + m) := by
    have none_wins (id : PropertyId) : (winning s.registry matched id).isNone =
        (winning s.registry matched' id).isNone := by
      rw [← Option.isNone_map, h, Option.isNone_map]
    rw [overwriteAll_congr (h s.registry)]
    simp only [none_wins]
  rw [applyMatched, applyMatched]
  exact congrArg (store >>= ·) (funext same)

theorem cascadeAll_congr
    (h : ∀ e, applyMatched e (collect c d e rules) = applyMatched e (collect c d e rules'))
    (es : List NodeId) : cascadeAll c d rules es = cascadeAll c d rules' es := by
  induction es with
  | nil => rfl
  | cons e es ih => rw [cascadeAll, cascadeAll, h, ih]

theorem cascadeTree_split (c : MatchingContext) (d : Document) (before after : List Rule)
    (rule : Rule) (top : NodeId) :
    cascadeTree c d (before ++ rule :: after) top =
      cascadeTree c d (before ++ rule.split ++ after) top := by
  have applied (e : NodeId) : applyMatched e (collect c d e (before ++ rule :: after)) =
      applyMatched e (collect c d e (before ++ rule.split ++ after)) := by
    obtain ⟨σ, reorders⟩ := exists_reorders c d e before after rule
    exact applyMatched_congr fun r id => winning_reordered reorders nodup_collect nodup_collect
  rw [cascadeTree, cascadeTree]
  simp only [cascadeAll_congr applied]

end StyleM

end CssStyling
