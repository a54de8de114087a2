import CssStyling.Proofs.Cascade.Listening
import CssStyling.Proofs.Store.Defaulting

namespace CssStyling

def Store.Proceeds (s s' : Store) : Prop :=
  s.Preserves s' ∨ ∃ layout, s.Reads layout s'

namespace StyleM

theorem tallies_preserves : Tallies fun a _ b => a.store.Preserves b.store where
  refl a := .refl a.store
  trans := .trans

theorem countsWrites_preserves (e : NodeId) :
    CountsWrites (fun a _ b => a.store.Preserves b.store) e where
  reset _ name := (writes_reset e name).preserves
  overwrite _ name source := (writes_overwrite e name source).preserves

theorem admits_preserves (es : List NodeId) :
    Admits (fun a _ b => a.store.Preserves b.store) es :=
  fun _ _ _ _ _ hs => Store.insert_preserves hs

end StyleM

theorem StyleOperation.Changes.proceeds {s s' : Store} {o : StyleOperation}
    (h : Changes s o s') : s.Proceeds s' := by
  cases h with
  | refused => exact .inl (.refl s)
  | insert hi => exact .inl (Store.insert_preserves hi)
  | setParent hp => exact .inl (Store.setParent_preserves hp)
  | remove hr => exact .inl (Store.remove_preserves hr)
  | write _ he _ hw => exact .inl (Store.written_preserves he hw)
  | invalidateElement => exact .inl Store.invalidateElement_preserves
  | invalidateAll => exact .inl Store.invalidateAll_preserves
  | read hr | readById hr => exact .inr ⟨_, hr⟩

namespace StyleAction

open StyleM

variable {a b : Activity} {r : PropertyRegistry} {layout : Layout} {e : NodeId} {id : PropertyId}
  {v : Value}

theorem perform_proceeds (hl : a.store.Linked) (action : StyleAction) :
    a.store.Proceeds (perform a action).store := by
  have listening {ls : List SubscriptionId} {n : SubscriptionId} :
      a.store.Preserves { a.store with listeners := ls, nextSubscription := n } := by
    refine ⟨fun _ => rfl, fun h => ?_, fun _ _ h => h.cleared (C := fun _ _ => False) ?_⟩
    · exact ⟨⟨h.nodup, h.parent⟩, h.contains_parent, h.rooted⟩
    · exact ⟨rfl, False.elim, fun _ => rfl, fun _ => rfl, fun _ => rfl, fun _ => rfl,
        fun _ _ => id, False.elim⟩
  have counted {x : StyleM Nat} (hx : Counts (fun a _ b => a.store.Preserves b.store) x) :
      Ensures (discard x) a (fun _ b => a.store.Proceeds b.store)
        fun _ b => a.store.Proceeds b.store :=
    ensures_discard ((hx a).mono (fun _ _ hb => .inl hb) fun _ _ ⟨_, hb⟩ => .inl hb)
  refine after_of_ensures (P := fun b => a.store.Proceeds b.store) ?_
  cases action with
  | operate o =>
      exact (o.program_changes hl).mono (fun _ _ hb => hb.proceeds) fun _ _ hb => hb.proceeds
  | insertTree d top =>
      exact (tallies_preserves.plant (admits_preserves _) a).mono (fun _ _ hb => .inl hb)
        fun _ _ hb => .inl hb
  | applyMatched e matched =>
      exact counted (tallies_preserves.applyMatched (countsWrites_preserves e) matched)
  | cascadeTree c d rules top =>
      exact counted (tallies_preserves.cascadeTree countsWrites_preserves (admits_preserves _))
  | subscribe | unsubscribe =>
      simp only [program]
      exact ensures_modifyStore (.inl listening)

theorem supported_run (r : PropertyRegistry) (as : List StyleAction) :
    (run r as).store.Supported fun _ => True := by
  induction as using List.reverseRecOn with
  | nil =>
      refine .of_nothing_kept fun e id => ?_
      rw [run, List.foldl_nil, Store.slotAt_ofRegistry]
      exact ⟨rfl, rfl⟩
  | append_singleton as action ih =>
      have linked := linked_run r as
      rw [run_concat]
      rcases perform_proceeds linked action with preserves | ⟨layout, reads⟩
      · exact preserves.supported _ linked ih
      · exact reads.supported trivial ih

theorem computedById_resolved (hr : r.Concrete) (as : List StyleAction)
    (h : computedById layout e id (run r as) = .ok v b) :
    ∃ p, r.get? id = some p ∧ v.ResolvedUnless ((run r as).store.ComputesInherit p id e) := by
  have linked := linked_run r as
  obtain ⟨reads, kept⟩ := (ensures_computedById linked).of_ok h
  have supported := reads.supported trivial (supported_run r as)
  have registry : b.store.registry = r := reads.grown.registry.trans (registry_run r as)
  have cached : (b.store.slotAt e id).cached .computed = some v := kept
  obtain ⟨p, hp⟩ := supported.exists_definition cached
  have resolved := supported.resolved (reads.linked linked) (registry ▸ hr) hp cached
  exact ⟨p, registry ▸ hp, resolved.congr reads.grown.computesInherit_iff⟩

theorem computed_resolved (hr : r.Concrete) (as : List StyleAction) :
    (∀ layout e id v b, computedById layout e id (run r as) = .ok v b →
      ∃ p, r.get? id = some p ∧ v.ResolvedUnless ((run r as).store.ComputesInherit p id e)) ∧
    ∀ layout e name v b, computed layout e name (run r as) = .ok v b →
      ∃ id p, r.id? name = some id ∧ r.get? id = some p ∧
        v.ResolvedUnless ((run r as).store.ComputesInherit p id e) := by
  refine ⟨fun layout e id v b => computedById_resolved hr as, fun layout e name v b h => ?_⟩
  have hread : read .computed layout e name (run r as) = .ok v b := h
  obtain ⟨id, hid, h⟩ := exists_id_of_read hread
  obtain ⟨p, hp, resolved⟩ := computedById_resolved hr as h
  exact ⟨id, p, registry_run r as ▸ hid, hp, resolved⟩

theorem ink_concrete : StyleOperation.ink.Concrete := by
  have only {id : PropertyId} {p : PropertyDefinition} (hp : StyleOperation.ink.get? id = some p) :
      p = ⟨"color", .keyword "black", true, .ofKind .keyword, .empty, none, none, 0⟩ := by
    obtain ⟨hlt, rfl⟩ := Array.getElem?_eq_some_iff.mp hp
    obtain rfl : id = 0 := by simpa [StyleOperation.ink] using hlt
    rfl
  intro id p hp
  rw [only hp]
  exact PropertyDefinition.concrete_of_base rfl (.inl rfl)

def inheriting : List StyleAction :=
  [.operate (.insert ⟨0, 1⟩ none), .operate (.insert ⟨1, 1⟩ (some ⟨0, 1⟩)),
    .operate (.assign ⟨0, 1⟩ "color" .inherit none),
    .operate (.assign ⟨1, 1⟩ "color" .inherit none)]

theorem computed_resolved_root : StyleOperation.ink.Concrete ∧
    (∃ b, computed StyleOperation.noLayout ⟨0, 1⟩ "color" (run StyleOperation.ink inheriting) =
      .ok (.keyword "black") b) ∧
    ∃ id p, StyleOperation.ink.id? "color" = some id ∧ StyleOperation.ink.get? id = some p ∧
      (Value.keyword "black").ResolvedUnless
        ((run StyleOperation.ink inheriting).store.ComputesInherit p id ⟨0, 1⟩) := by
  have answer : answer? (computed StyleOperation.noLayout ⟨0, 1⟩ "color"
      (run StyleOperation.ink inheriting)) = some (.keyword "black") := by cbv
  obtain ⟨b, hb⟩ := exists_of_answer? answer
  exact ⟨ink_concrete, ⟨b, hb⟩, (computed_resolved ink_concrete inheriting).2 _ _ _ _ b hb⟩

theorem computed_inherit_below_inherit : StyleOperation.ink.Concrete ∧
    ∃ b, computed StyleOperation.noLayout ⟨1, 1⟩ "color" (run StyleOperation.ink inheriting) =
      .ok .inherit b := by
  have answer : answer? (computed StyleOperation.noLayout ⟨1, 1⟩ "color"
      (run StyleOperation.ink inheriting)) = some .inherit := by cbv
  exact ⟨ink_concrete, exists_of_answer? answer⟩

end StyleAction

end CssStyling
