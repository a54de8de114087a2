import CssStyling.Proofs.Cascade.Applying
import CssStyling.Proofs.Cascade.Keeping
import CssStyling.Proofs.Store.Planting

namespace CssStyling

namespace Candidate

variable {c : Candidate} {cs : List Candidate} {id : PropertyId} {r : PropertyRegistry}

theorem of_winner? (h : winner? (eligible r cs) id = some c) :
    c ∈ cs ∧ c.property? r = some id := by
  rw [winner?_eligible] at h
  rcases best?_spec (cs.filter fun c => c.property? r == some id) with ⟨hn, _⟩ | ⟨d, hd, hbest⟩
  · simp [hn] at h
  · obtain rfl := Option.some.inj (hd.symm.trans h)
    obtain ⟨before, after, hsplit, -, -⟩ := hbest
    have hmem : d ∈ cs.filter fun c => c.property? r == some id := by simp [hsplit]
    simpa using hmem

end Candidate

namespace MatchedRule

variable {c : MatchingContext} {d : Document} {e : NodeId} {m : MatchedRule} {rules : List Rule}

theorem rule_mem_of_collectFrom {n : Nat} (h : m ∈ collectFrom c d e n rules) :
    m.rule ∈ rules := by
  induction rules generalizing n with
  | nil => exact absurd h List.not_mem_nil
  | cons rule rules ih =>
      rcases List.mem_append.mp h with h | h
      · obtain ⟨s, _, rfl⟩ := Option.map_eq_some_iff.mp (Option.mem_toList.mp h)
        exact List.mem_cons_self
      · exact List.mem_cons_of_mem _ (ih h)

end MatchedRule

def verdict (known : Bool) (winner : Option Candidate) (old : Content) : Content :=
  match winner with
  | some c =>
      if old.1 == c.declaration.value then old
      else (c.declaration.value, some c.matched.provenance)
  | none => if known && old.2.any (·.selector.isSome) then (.unset, none) else old

section

variable {known : Bool} {c : Candidate} {old : Content}

theorem verdict_kept (h : (old.1 == c.declaration.value) = true) :
    verdict known (some c) old = old :=
  if_pos h

theorem verdict_replaced (h : (old.1 == c.declaration.value) = false) :
    verdict known (some c) old = (c.declaration.value, some c.matched.provenance) :=
  if_neg (ne_true_of_eq_false h)

theorem verdict_lost (h : (verdict known none old).2.any (·.selector.isSome) = true) :
    known = false := by
  unfold verdict at h
  dsimp only at h
  split at h
  · cases h
  · rename_i hn
    simpa [h] using hn

end

namespace StyleM

open Store

variable {a : Activity} {e : NodeId} {name : String} {id : PropertyId} {ids : List PropertyId}
  {matched : List MatchedRule} {c : MatchingContext} {d : Document} {rules : List Rule}
  {top : NodeId}

def winning (r : PropertyRegistry) (matched : List MatchedRule) (id : PropertyId) :
    Option Candidate :=
  Candidate.winner? (Candidate.eligible r (Candidate.ofMatched matched)) id

theorem winning_accepted {r : PropertyRegistry} {id : PropertyId} {w : Candidate}
    (h : winning r matched id = some w) : w.property? r = some id :=
  (Candidate.of_winner? h).2

theorem winning_known {r : PropertyRegistry} {id : PropertyId} {w : Candidate}
    (h : winning r matched id = some w) : (r.get? id).isSome = true := by
  obtain ⟨-, p, hp, -⟩ := Candidate.property?_eq_some.mp (winning_accepted h)
  simp [hp]

structure Passed (s s' : Store) (winner : NodeId → PropertyId → Option Candidate)
    (es : List NodeId) : Prop where
  registry : s'.registry = s.registry
  linked : s'.Linked
  contains {x : NodeId} : s.contains x = true → s'.contains x = true
  content (x : NodeId) (id : PropertyId) : s'.content x id =
    if x ∈ es then verdict (s.registry.get? id).isSome (winner x id) (s.content x id)
    else s.content x id

theorem content_updated {s t s' : Store} {winner : PropertyId → Option Candidate} {m n : Nat}
    (hw : ∀ id c, winner id = some c → (s.registry.get? id).isSome = true)
    (reset : s.Updated t e (resetting s e) ((ruled s e).filter fun id => (winner id).isNone) n)
    (written : t.Updated s' e (overwriting s e winner) (List.range s.registry.size) m)
    (id : PropertyId) : s'.content e id =
      verdict (s.registry.get? id).isSome (winner id) (s.content e id) := by
  rw [written.content]
  cases hc : winner id with
  | some c =>
      obtain ⟨p, hp⟩ := Option.isSome_iff_exists.mp (hw id c hc)
      have hid : id ∈ List.range s.registry.size :=
        List.mem_range.mpr (PropertyRegistry.lt_size hp)
      rw [if_pos ⟨rfl, hid⟩, overwriting, hc]
      rfl
  | none =>
      have hkept : (if e = e ∧ id ∈ List.range s.registry.size then
          ((overwriting s e winner id).map Prod.snd).getD (t.content e id)
          else t.content e id) = t.content e id := by
        simp [overwriting, hc]
      have hruled : id ∈ (ruled s e).filter (fun id => (winner id).isNone) ↔
          (s.content e id).2.any (·.selector.isSome) = true := by
        rw [List.mem_filter, mem_ruled, hc]
        exact and_iff_left rfl
      rw [hkept, reset.content]
      simp only [hruled, verdict, resetting, true_and, Bool.and_eq_true]
      cases s.registry.get? id <;> simp

theorem ensures_applyMatched_updated (he : a.store.contains e = true) :
    Ensures (applyMatched e matched) a (fun _ b => ∃ (t : Store) (m n : Nat),
      a.store.Updated t e (resetting a.store e)
        ((ruled a.store e).filter fun id => (winning a.store.registry matched id).isNone) n ∧
      t.Updated b.store e (overwriting a.store e (winning a.store.registry matched))
        (List.range a.store.registry.size) m) (fun _ _ => False) := by
  rw [applyMatched]
  refine ensures_bind (ensures_store ?_)
  refine ensures_bind ((ensures_resetAll (nodup_ruled.filter _) he rfl fun _ _ => rfl).mono ?_
    fun _ _ h => h)
  intro n b hb
  refine ensures_bind ((ensures_overwriteAll (fun _ _ => winning_accepted) List.nodup_range
    ((hb.contains e).trans he) hb.registry fun id _ hsome => ?_).mono ?_ fun _ _ h => h)
  · rw [hb.content, if_neg]
    rintro ⟨-, hmem⟩
    have hnone := (List.mem_filter.mp hmem).2
    rw [Option.isNone_iff_eq_none] at hnone
    simp [winning, hnone] at hsome
  · exact fun m c hc => ensures_pure ⟨b.store, m, n, hb, hc⟩

theorem ensures_applyMatched {winner : NodeId → PropertyId → Option Candidate}
    (hl : a.store.Linked) (he : a.store.contains e = true)
    (hw : winner e = winning a.store.registry matched) :
    Ensures (applyMatched e matched) a (fun _ b => Passed a.store b.store winner [e])
      (fun _ _ => False) := by
  have keeps := (tallies_keeps []).applyMatched (countsWrites_keeps [] e) matched a
  refine ((ensures_applyMatched_updated he).and keeps).mono ?_ fun _ _ h => h.1
  rintro k b ⟨⟨t, m, n, hreset, hwritten⟩, hkeeps⟩
  refine ⟨hwritten.registry.trans hreset.registry, (hkeeps hl).linked, fun hx => ?_,
    fun x id => ?_⟩
  · rwa [hwritten.contains, hreset.contains]
  · by_cases hx : x = e
    · subst x
      rw [if_pos List.mem_cons_self, hw]
      exact content_updated (fun _ _ => winning_known) hreset hwritten id
    · rw [if_neg (by simpa using hx), hwritten.content, if_neg fun h => hx h.1, hreset.content,
        if_neg fun h => hx h.1]

theorem Passed.of_kept {s t s' : Store} {winner : NodeId → PropertyId → Option Candidate}
    {es : List NodeId} (h : Kept s t) (h' : Passed t s' winner es) : Passed s s' winner es where
  registry := h'.registry.trans h.registry
  linked := h'.linked
  contains hx := h'.contains (h.contains hx)
  content x id := by rw [h'.content, h.registry, h.content]

theorem Passed.cons {s t s' : Store} {winner : NodeId → PropertyId → Option Candidate}
    {es : List NodeId} (h : Passed s t winner [e]) (h' : Passed t s' winner es) (he : e ∉ es) :
    Passed s s' winner (e :: es) where
  registry := h'.registry.trans h.registry
  linked := h'.linked
  contains hx := h'.contains (h.contains hx)
  content x id := by
    rw [h'.content, h.registry, h.content]
    by_cases hx : x = e
    · simp [hx, he]
    · simp [hx]

theorem ensures_ensure (hl : a.store.Linked) : Ensures (ensure d e) a
    (fun _ b => Kept a.store b.store ∧ b.store.Linked ∧ b.store.contains e = true)
    (fun _ _ => False) := by
  unfold ensure
  refine ensures_bind (ensures_store ?_)
  cases he : a.store.contains e with
  | true => exact ensures_pure ⟨.refl _, hl, he⟩
  | false =>
      have below : ∀ p, a.store.knownParent? d e = some p →
          a.store.contains p = true ∧ ∀ l, Lineage a.store.parent? p l → e ∉ l := by
        intro p hp
        have hc := (Option.filter_eq_some_iff.mp hp).2
        refine ⟨hc, fun l hlin hmem => ?_⟩
        have known := hlin.mem_of_closed (P := fun x => a.store.contains x = true) hc
          (fun _ _ => hl.contains_parent) e hmem
        simp [he] at known
      obtain ⟨s', hs', hadded⟩ := exists_insert hl below
      refine ensures_apply (fun s hs => ?_) fun error herror => ?_
      · obtain rfl := Except.ok.inj (hs'.symm.trans hs)
        exact ⟨hadded.kept, hadded.linked, by simp [hadded.contains]⟩
      · cases hs'.symm.trans herror

def verdicts (r : PropertyRegistry) (c : MatchingContext) (d : Document) (rules : List Rule)
    (e : NodeId) : PropertyId → Option Candidate :=
  winning r (MatchedRule.collect c d e rules)

theorem ensures_cascadeAll {es : List NodeId} (hl : a.store.Linked) (hn : es.Nodup) :
    Ensures (cascadeAll c d rules es) a
      (fun _ b => Passed a.store b.store (verdicts a.store.registry c d rules) es)
      (fun _ _ => False) := by
  induction es generalizing a with
  | nil => exact ensures_pure ⟨rfl, hl, id, fun x id => by simp⟩
  | cons e es ih =>
      obtain ⟨he, hn⟩ := List.nodup_cons.mp hn
      rw [cascadeAll]
      refine ensures_bind ((ensures_ensure hl).mono ?_ fun _ _ h => h)
      rintro _ b ⟨hkept, hlb, hc⟩
      have hw : verdicts a.store.registry c d rules e =
          winning b.store.registry (MatchedRule.collect c d e rules) := by
        rw [hkept.registry, verdicts]
      refine ensures_bind ((ensures_applyMatched hlb hc hw).mono ?_ fun _ _ h => h)
      intro n b' hb'
      refine ensures_bind ((ih hb'.linked hn).mono ?_ fun _ _ h => h)
      intro m b'' hb''
      rw [hb'.registry, hkept.registry] at hb''
      exact ensures_pure (.of_kept hkept (.cons hb' hb'' he))

theorem ensures_cascadeTree (hl : a.store.Linked) (hd : d.Linked) :
    Ensures (cascadeTree c d rules top) a
      (fun _ b => Passed a.store b.store (verdicts a.store.registry c d rules)
        (d.subtreeElements top)) (fun _ _ => False) := by
  have hn : (d.subtreeElements top).Nodup := (hd.nodup_subtree top).filter _
  unfold cascadeTree
  refine ensures_bind (ensures_store ?_)
  cases ht : a.store.contains top with
  | true => exact ensures_cascadeAll hl hn
  | false =>
      obtain ⟨s', hs', hkept, hmirrors⟩ := exists_insertTree hl hd top
      refine ensures_bind (ensures_applyPartial_ok hs' ?_)
      refine (ensures_cascadeAll hmirrors.linked hn).mono (fun _ _ h => ?_) fun _ _ h => h
      rw [hkept.registry] at h
      exact .of_kept hkept h

end StyleM

end CssStyling
