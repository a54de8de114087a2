import CssStyling.Proofs.Cascade.Passes
import CssStyling.Proofs.Document.Editing

namespace CssStyling

namespace Store

variable {s s' : Store} {e x : NodeId} {id : PropertyId} {parent : Option NodeId}
  {r : PropertyRegistry} {winner : NodeId → PropertyId → Option Candidate} {es : List NodeId}

theorem insert_content (h : s.insert e parent = .ok s') : s'.content x id = s.content x id := by
  rcases insert_cases h with same | ⟨he, rfl⟩
  · exact same.content x id
  · rw [content, slotAt_add he]
    rfl

theorem remove_content (h : s.remove e = .ok s') :
    s'.content x id = s.content x id ∨ s'.content x id = (.unset, none) := by
  obtain ⟨t, ht, hs⟩ := remove_cases h
  rw [hs.content, ← ht.content x id, content, slotAt_erase]
  split
  · exact .inr rfl
  · exact .inl rfl

end Store

def Content.Revocable (c : Content) : Prop :=
  c.1 = .unset ∨ c.2.any (·.selector.isSome) = true

section

variable {known : Bool} {winner : Option Candidate} {old : Content}

theorem verdict_revocable (h : old.Revocable) : (verdict known winner old).Revocable := by
  unfold verdict
  cases winner with
  | some c =>
      dsimp only
      split
      · exact h
      · exact .inr rfl
  | none =>
      dsimp only
      split
      · exact .inl rfl
      · exact h

theorem verdict_provenance (h : (verdict known winner old).2 ≠ none) :
    old.2 ≠ none ∨ winner.isSome = true := by
  cases winner with
  | some c => exact .inr rfl
  | none =>
      unfold verdict at h
      dsimp only at h
      split at h
      · exact absurd rfl h
      · exact .inl h

theorem verdict_beq (h : old.Revocable) (hk : old.2 ≠ none → known = true)
    (hw : ∀ c, winner = some c → c.declaration.value.holdsNaN = false) :
    ((verdict known winner old).1 == (verdict known winner (.unset, none)).1) = true := by
  cases winner with
  | none =>
      have cleared : (verdict known none old).1 = .unset := by
        unfold verdict
        rcases h with h | h
        · dsimp only
          split
          · rfl
          · exact h
        · have hsome : old.2 ≠ none := by
            intro hn
            simp [hn] at h
          simp [hk hsome, h]
      have start : (verdict known none (.unset, none)).1 = .unset := by simp [verdict]
      rw [cleared, start]
      rfl
  | some c =>
      have start : (verdict known (some c) (.unset, none)).1 = c.declaration.value := by
        unfold verdict
        dsimp only
        split
        · rename_i heq
          rw [Value.beq_comm, Value.beq_unset] at heq
          cases hv : c.declaration.value <;> simp [hv, Value.isUnset] at heq ⊢
        · rfl
      rw [start]
      unfold verdict
      dsimp only
      split
      · assumption
      · exact Value.beq_self (hw c rfl)

end

namespace Store

variable {s s' : Store} {r : PropertyRegistry} {es : List NodeId}

structure Ruled (r : PropertyRegistry) (s : Store) : Prop where
  registry : s.registry = r
  linked : s.Linked
  known : s.Known
  revocable (x : NodeId) (id : PropertyId) : (s.content x id).Revocable

theorem ofRegistry_ruled (r : PropertyRegistry) : (ofRegistry r).Ruled r where
  registry := rfl
  linked := ofRegistry_linked r
  known x j hx := by
    rw [slotAt_ofRegistry] at hx
    exact absurd rfl hx
  revocable x id := by
    rw [content, slotAt_ofRegistry]
    exact .inl rfl

theorem Ruled.kept (h : s.Ruled r) (hk : Kept s s') (hl : s'.Linked) : s'.Ruled r where
  registry := hk.registry.trans h.registry
  linked := hl
  known := h.known.congr hk.registry fun x j hx => by
    have same : (s'.slotAt x j).provenance = (s.slotAt x j).provenance :=
      congrArg Prod.snd (hk.content x j)
    rwa [← same]
  revocable x id := by
    rw [hk.content]
    exact h.revocable x id

theorem Ruled.listening {ls : List SubscriptionId} {n : SubscriptionId} (h : s.Ruled r) :
    Ruled r { s with listeners := ls, nextSubscription := n } :=
  ⟨h.registry, ⟨⟨h.linked.nodup, h.linked.parent⟩, h.linked.contains_parent, h.linked.rooted⟩,
    h.known, h.revocable⟩

theorem Ruled.passed {c : MatchingContext} {d : Document} {rules : List Rule} (h : s.Ruled r)
    (hp : StyleM.Passed s s' (StyleM.verdicts r c d rules) es) : s'.Ruled r where
  registry := hp.registry.trans h.registry
  linked := hp.linked
  known x j hx := by
    have hold : (s'.content x j).2 ≠ none := hx
    rw [hp.registry]
    rw [hp.content] at hold
    split at hold
    · rcases verdict_provenance hold with hold | hw
      · exact h.known x j hold
      · obtain ⟨w, hw⟩ := Option.isSome_iff_exists.mp hw
        rw [h.registry]
        exact StyleM.winning_known hw
    · exact h.known x j hold
  revocable x id := by
    rw [hp.content]
    split
    · exact verdict_revocable (h.revocable x id)
    · exact h.revocable x id

end Store

namespace StyleOperation

open StyleM

variable {r : PropertyRegistry} {a : Activity} {o : StyleOperation}

theorem perform_content (hl : a.store.Linked) (ho : o.writes = false) (x : NodeId)
    (id : PropertyId) : (perform a o).store.content x id = a.store.content x id ∨
      (perform a o).store.content x id = (.unset, none) := by
  have changes := perform_changes hl o
  generalize (perform a o).store = s at changes ⊢
  cases changes with
  | refused => exact .inl rfl
  | insert hi => exact .inl (Store.insert_content hi)
  | setParent hp => exact .inl ((Store.setParent_sameContents hp).content x id)
  | remove hr => exact Store.remove_content hr
  | write hw => simp [ho] at hw
  | invalidateElement => exact .inl (Store.invalidateElement_sameContents.content x id)
  | invalidateAll => exact .inl (Store.invalidateAll_sameContents.content x id)
  | read hr | readById hr =>
      exact .inl (Prod.ext (hr.grown.assigned x id) (hr.grown.provenance x id))

theorem sound_of_linked (hl : a.store.Linked) : ∃ used, Sound a.store.registry used a := by
  let pixels : Layout := ⟨fun _ _ => some 1, fun _ _ => none⟩
  have hne : noLayout ≠ pixels := by
    intro h
    have scale := congrArg (fun l => l.unitScale ⟨0, 0⟩ .em) h
    simp [noLayout, pixels] at scale
  refine ⟨[noLayout, pixels], rfl, hl, fun h => ?_⟩
  have first := h noLayout (by simp)
  exact absurd (first.trans (h pixels (by simp)).symm) hne

theorem perform_ruled (h : a.store.Ruled r) (ho : o.writes = false) :
    (perform a o).store.Ruled r := by
  obtain ⟨used, sound⟩ := sound_of_linked h.linked
  have performed := perform_sound sound o
  refine ⟨performed.registry.trans h.registry, performed.linked,
    perform_known h.linked h.known o, fun x id => ?_⟩
  rcases perform_content h.linked ho x id with same | cleared
  · rw [same]
    exact h.revocable x id
  · rw [cleared]
    exact .inl rfl

end StyleOperation

namespace StyleM

variable {α : Type} {r : PropertyRegistry} {a : Activity} {c : MatchingContext} {d : Document}
  {rules : List Rule} {top : NodeId}

inductive Styled (r : PropertyRegistry) : Activity → Prop where
  | start : Styled r ⟨.ofRegistry r, #[], #[]⟩
  | pass {a : Activity} {d : Document} (c : MatchingContext) (rules : List Rule) (top : NodeId) :
      Styled r a → d.Reached → Styled r (after (cascadeTree c d rules top) a)
  | plant {a : Activity} {d : Document} (top : NodeId) : Styled r a → d.Reached →
      Styled r (after (applyPartial (·.insertTree d top)) a)
  | perform {a : Activity} {o : StyleOperation} : Styled r a → o.writes = false →
      Styled r (o.perform a)
  | subscribe {a : Activity} : Styled r a → Styled r { a with store := a.store.subscribe.2 }
  | unsubscribe {a : Activity} (id : SubscriptionId) : Styled r a →
      Styled r { a with store := (a.store.unsubscribe id).2 }

theorem Styled.ruled (h : Styled r a) : a.store.Ruled r := by
  induction h with
  | start => exact Store.ofRegistry_ruled r
  | pass c rules top _ hd ih =>
      exact after_of_ensures (P := fun b => b.store.Ruled r)
        ((ensures_cascadeTree ih.linked hd.linked).mono
          (fun _ _ hp => ih.passed (ih.registry ▸ hp)) fun _ _ h => h.elim)
  | plant top _ hd ih =>
      obtain ⟨s', hs', hkept, hmirrors⟩ := Store.exists_insertTree ih.linked hd.linked top
      exact after_of_ensures (P := fun b => b.store.Ruled r)
        (ensures_applyPartial_ok hs' (ih.kept hkept hmirrors.linked))
  | perform _ ho ih => exact StyleOperation.perform_ruled ih ho
  | subscribe _ ih => exact ih.listening
  | unsubscribe _ _ ih => exact ih.listening

theorem verdicts_declared {e : NodeId} {id : PropertyId} {w : Candidate}
    (h : verdicts r c d rules e id = some w) :
    ∃ rule ∈ rules, w.declaration ∈ rule.declarations := by
  obtain ⟨m, hm, hw⟩ := List.mem_flatMap.mp (Candidate.of_winner? h).1
  obtain ⟨declaration, hd, rfl⟩ := List.mem_map.mp hw
  exact ⟨m.rule, MatchedRule.rule_mem_of_collectFrom hm, hd⟩

theorem cascadeTree_again (h : Styled r a) (hd : d.Reached)
    (hv : ∀ rule ∈ rules, ∀ declaration ∈ rule.declarations,
      declaration.value.holdsNaN = false) :
    ∃ n b n' b', cascadeTree c d rules top a = .ok n b ∧
      cascadeTree c d rules top ⟨.ofRegistry r, #[], #[]⟩ = .ok n' b' ∧
      ∀ e ∈ d.subtreeElements top, ∀ id,
        (b.store.assigned e id == b'.store.assigned e id) = true := by
  have ruled := h.ruled
  have linked : (Activity.store ⟨.ofRegistry r, #[], #[]⟩).Linked := Store.ofRegistry_linked r
  obtain ⟨n, b, hb, hp⟩ := (ensures_cascadeTree ruled.linked hd.linked).exists_ok
  obtain ⟨n', b', hb', hp'⟩ := (ensures_cascadeTree linked hd.linked).exists_ok
  refine ⟨n, b, n', b', hb, hb', fun e he id => ?_⟩
  have first : b.store.content e id = verdict (r.get? id).isSome (verdicts r c d rules e id)
      (a.store.content e id) := by
    rw [hp.content, if_pos he, ruled.registry]
  have second : b'.store.content e id = verdict (r.get? id).isSome (verdicts r c d rules e id)
      (.unset, none) := by
    have nothing : (Store.ofRegistry r).content e id = (.unset, none) := by
      rw [Store.content, Store.slotAt_ofRegistry]
      rfl
    rw [hp'.content, if_pos he, nothing]
    rfl
  have plain (w : Candidate) (hw : verdicts r c d rules e id = some w) :
      w.declaration.value.holdsNaN = false := by
    obtain ⟨rule, hrule, hdecl⟩ := verdicts_declared hw
    exact hv rule hrule w.declaration hdecl
  have same := verdict_beq (ruled.revocable e id)
    (fun hn => ruled.registry ▸ ruled.known e id hn) plain
  rw [← first, ← second] at same
  exact same

def paragraph : Document :=
  (Document.empty.create (.element ⟨none, "p", []⟩)).2

def colored (word : String) : List Rule :=
  [⟨⟨[⟨[], ⟨[.universal .any]⟩, .zero⟩]⟩, [⟨"color", .keyword word, false⟩], .author, 0⟩]

theorem cascadeTree_blue_after_red :
    Styled StyleOperation.ink (after (cascadeTree .standard paragraph (colored "red") ⟨0, 0⟩)
        ⟨.ofRegistry StyleOperation.ink, #[], #[]⟩) ∧
      paragraph.Reached ∧
      ∃ n b n' b', cascadeTree .standard paragraph (colored "blue") ⟨0, 0⟩
          (after (cascadeTree .standard paragraph (colored "red") ⟨0, 0⟩)
            ⟨.ofRegistry StyleOperation.ink, #[], #[]⟩) = .ok n b ∧
        cascadeTree .standard paragraph (colored "blue") ⟨0, 0⟩
          ⟨.ofRegistry StyleOperation.ink, #[], #[]⟩ = .ok n' b' ∧
        ∀ e ∈ paragraph.subtreeElements ⟨0, 0⟩, ∀ id,
          (b.store.assigned e id == b'.store.assigned e id) = true := by
  have reached : paragraph.Reached := .create .empty _
  have styled := (Styled.start : Styled StyleOperation.ink _).pass .standard (colored "red")
    ⟨0, 0⟩ reached
  have numbers : ∀ rule ∈ colored "blue", ∀ declaration ∈ rule.declarations,
      declaration.value.holdsNaN = false := by
    intro rule hrule declaration hdecl
    obtain rfl := List.mem_singleton.mp hrule
    obtain rfl := List.mem_singleton.mp hdecl
    rfl
  exact ⟨styled, reached, cascadeTree_again styled reached numbers⟩

end StyleM

end CssStyling
