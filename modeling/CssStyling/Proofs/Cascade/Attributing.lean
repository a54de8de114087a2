import CssStyling.Proofs.Cascade.Passes

namespace CssStyling

namespace StyleM

open Store

variable {a : Activity} {s s' : Store} {e : NodeId} {id : PropertyId} {p : Place}
  {matched : List MatchedRule}

theorem winning_decides (r : PropertyRegistry) (h : (matched.map (·.order)).Nodup) :
    Decides r matched (winning r matched) :=
  Place.winner?_spec h

structure Attributed (s s' : Store) (e : NodeId) (matched : List MatchedRule) : Prop where
  replaced {id : PropertyId} {p : Place} : p.Wins s.registry matched id →
    (s.assigned e id == p.declaration.value) = false →
      s'.assigned e id = p.declaration.value ∧ (s'.slotAt e id).provenance =
        some ⟨p.matched.rule.origin, p.matched.rule.source, some p.matched.selector,
          p.matched.selector.specificity⟩
  kept {id : PropertyId} {p : Place} : p.Wins s.registry matched id →
    (s.assigned e id == p.declaration.value) = true →
      s'.assigned e id = s.assigned e id ∧
        (s'.slotAt e id).provenance = (s.slotAt e id).provenance
  backed {id : PropertyId} : (s.registry.get? id).isSome = true →
    (s'.slotAt e id).provenance.any (·.selector.isSome) = true →
      ∃ p : Place, p.Wins s.registry matched id ∧
        (s'.assigned e id = p.declaration.value ∨
          (s'.assigned e id == p.declaration.value) = true)

theorem Attributed.of_verdict (h : (matched.map (·.order)).Nodup)
    (hv : ∀ id, s'.content e id =
      verdict (s.registry.get? id).isSome (winning s.registry matched id) (s.content e id)) :
    Attributed s s' e matched := by
  have decides := winning_decides s.registry h
  have replaced {id : PropertyId} {p : Place} (hp : p.Wins s.registry matched id)
      (hne : (s.assigned e id == p.declaration.value) = false) :
      s'.content e id = (p.declaration.value, some p.matched.provenance) := by
    rw [hv, decides.eq_some h hp]
    exact verdict_replaced hne
  have kept {id : PropertyId} {p : Place} (hp : p.Wins s.registry matched id)
      (heq : (s.assigned e id == p.declaration.value) = true) :
      s'.content e id = s.content e id := by
    rw [hv, decides.eq_some h hp]
    exact verdict_kept heq
  refine ⟨fun hp hne => Prod.mk.inj (replaced hp hne), fun hp heq => Prod.mk.inj (kept hp heq),
    fun {id} hid hrule => ?backed⟩
  case backed =>
    rcases decides id with ⟨hnone, -⟩ | ⟨p, -, hp⟩
    · have named : (s'.content e id).2.any (·.selector.isSome) = true := hrule
      rw [hv, hnone] at named
      exact absurd hid (ne_true_of_eq_false (verdict_lost named))
    · refine ⟨p, hp, ?_⟩
      cases heq : s.assigned e id == p.declaration.value with
      | true =>
          have same : s'.assigned e id = s.assigned e id := congrArg Prod.fst (kept hp heq)
          exact .inr (same ▸ heq)
      | false => exact .inl (congrArg Prod.fst (replaced hp heq))

theorem ensures_applyMatched_attributed (he : a.store.contains e = true)
    (h : (matched.map (·.order)).Nodup) :
    Ensures (applyMatched e matched) a (fun _ b => Attributed a.store b.store e matched)
      fun _ _ => False := by
  refine (ensures_applyMatched_updated he).mono ?_ fun _ _ h => h
  rintro _ b ⟨t, m, n, reset, written⟩
  exact .of_verdict h (content_updated (fun _ _ => winning_known) reset written)

theorem applyMatched_attributes (he : a.store.contains e = true)
    (h : (matched.map (·.order)).Nodup) :
    ∃ n b, applyMatched e matched a = .ok n b ∧ Attributed a.store b.store e matched :=
  (ensures_applyMatched_attributed he h).exists_ok

def hot : Complex :=
  ⟨[], ⟨[.className "hot"]⟩, ⟨0, 1, 0⟩⟩

def item : Complex :=
  ⟨[], ⟨[.type .omitted "li"]⟩, ⟨0, 0, 1⟩⟩

def reddening (s : Complex) (n : Nat) : MatchedRule :=
  ⟨⟨⟨[s]⟩, [⟨"color", .keyword "red", false⟩], .author, n⟩, s, s.specificity, n⟩

def reddened : Activity :=
  after (applyMatched ⟨0, 1⟩ [reddening hot 1, reddening item 2])
    (StyleOperation.run StyleOperation.ink [.insert ⟨0, 1⟩ none])

theorem applyMatched_attributes_item :
    reddened.store.contains ⟨0, 1⟩ = true ∧ ([reddening item 2].map (·.order)).Nodup ∧
      ∃ n b, applyMatched ⟨0, 1⟩ [reddening item 2] reddened = .ok n b ∧
        Attributed reddened.store b.store ⟨0, 1⟩ [reddening item 2] := by
  have known : reddened.store.contains ⟨0, 1⟩ = true := by cbv
  have distinct : ([reddening item 2].map (·.order)).Nodup := by decide
  exact ⟨known, distinct, applyMatched_attributes known distinct⟩

theorem applyMatched_keeps_source :
    reddened.store.contains ⟨0, 1⟩ = true ∧ ([reddening item 2].map (·.order)).Nodup ∧
      ∃ b, ∃ p : Place, applyMatched ⟨0, 1⟩ [reddening item 2] reddened = .ok 0 b ∧
        p.Wins reddened.store.registry [reddening item 2] 0 ∧
        p.declaration.value = .keyword "red" ∧ p.matched.rule.source = 2 ∧
        (b.store.slotAt ⟨0, 1⟩ 0).provenance.map (·.source) = some 1 := by
  have distinct : ([reddening item 2].map (·.order)).Nodup := by decide
  have answer : answer? (applyMatched ⟨0, 1⟩ [reddening item 2] reddened) = some 0 := by cbv
  have recorded : ((after (applyMatched ⟨0, 1⟩ [reddening item 2]) reddened).store.slotAt
      ⟨0, 1⟩ 0).provenance.map (·.source) = some 1 := by cbv
  have won : (winning reddened.store.registry [reddening item 2] 0).isSome = true := by cbv
  obtain ⟨b, hb⟩ := exists_of_answer? answer
  rw [after, hb] at recorded
  rcases winning_decides reddened.store.registry distinct 0 with ⟨hnone, -⟩ | ⟨p, -, wins⟩
  · rw [hnone] at won
    cases won
  · have source : p.matched = reddening item 2 := List.mem_singleton.mp wins.mem
    have declared := List.mem_of_getElem? wins.declared
    rw [source] at declared
    have value : p.declaration = ⟨"color", .keyword "red", false⟩ := List.mem_singleton.mp declared
    exact ⟨by cbv, distinct, b, p, hb, wins, by rw [value], by rw [source]; rfl, recorded⟩

end StyleM

end CssStyling
