import CssStyling.Proofs.Cascade.Keeping
import CssStyling.Proofs.Store.Operations

namespace CssStyling

namespace StyleOperation

open StyleM

variable {a : Activity}

def members : StyleOperation → List NodeId
  | insert e _ => [e]
  | remove e => [e]
  | _ => []

theorem Changes.keeps {s s' : Store} {o : StyleOperation} (hs : Changes s o s') (hl : s.Linked) :
    s.Keeps o.members s' := by
  cases hs with
  | refused => exact .refl hl
  | insert hi => exact .insert hl List.mem_cons_self hi
  | setParent hp => exact .setParent hl hp
  | remove hr => exact .remove hl List.mem_cons_self hr
  | write _ he _ hw => exact .written hl he hw
  | invalidateElement =>
      exact ⟨Store.invalidateElement_preserves.linked hl, fun _ =>
        Store.invalidateElement_sameContents.contains _⟩
  | invalidateAll => exact ⟨Store.invalidateAll_linked hl, fun _ => Store.contains_invalidateAll⟩
  | read hr | readById hr => exact .reads hl hr

end StyleOperation

inductive StyleAction where
  | operate (o : StyleOperation)
  | insertTree (d : Document) (top : NodeId)
  | applyMatched (e : NodeId) (matched : List MatchedRule)
  | cascadeTree (c : MatchingContext) (d : Document) (rules : List Rule) (top : NodeId)
  | subscribe
  | unsubscribe (id : SubscriptionId)

namespace StyleAction

open StyleM

variable {a : Activity} {r : PropertyRegistry} {as : List StyleAction} {action : StyleAction}

def program : StyleAction → StyleM Unit
  | operate o => o.program
  | insertTree d top => applyPartial (·.insertTree d top)
  | applyMatched e matched => discard (StyleM.applyMatched e matched)
  | cascadeTree c d rules top => discard (StyleM.cascadeTree c d rules top)
  | subscribe => modifyStore (·.subscribe.2)
  | unsubscribe id => modifyStore fun s => (s.unsubscribe id).2

def perform (a : Activity) (action : StyleAction) : Activity :=
  after action.program a

def run (r : PropertyRegistry) (as : List StyleAction) : Activity :=
  as.foldl perform ⟨.ofRegistry r, #[], #[]⟩

def members : StyleAction → List NodeId
  | operate o => o.members
  | insertTree d top => d.subtree top
  | cascadeTree _ d _ top => d.subtree top
  | _ => []

theorem perform_keeps (hl : a.store.Linked) (action : StyleAction) :
    a.store.Keeps action.members (perform a action).store := by
  have listening {s : Store} {ls : List SubscriptionId} {n : SubscriptionId} (hs : s.Linked) :
      s.Keeps [] { s with listeners := ls, nextSubscription := n } :=
    ⟨⟨⟨hs.nodup, hs.parent⟩, hs.contains_parent, hs.rooted⟩, fun _ => rfl⟩
  have counted {es : List NodeId} {x : StyleM Nat}
      (hx : Counts (fun a _ b => a.store.Linked → a.store.Keeps es b.store) x) :
      Ensures (discard x) a (fun _ b => a.store.Keeps es b.store)
        fun _ b => a.store.Keeps es b.store :=
    ensures_discard ((hx a).mono (fun _ _ hb => hb hl) fun _ _ ⟨_, hb⟩ => hb hl)
  refine after_of_ensures (P := fun b => a.store.Keeps action.members b.store) ?_
  cases action with
  | operate o =>
      exact (o.program_changes hl).mono (fun _ _ hb => hb.keeps hl) fun _ _ hb => hb.keeps hl
  | insertTree d top =>
      exact ((tallies_keeps _).plant (admits_keeps _) a).mono (fun _ _ hb => hb hl)
        fun _ _ hb => hb hl
  | applyMatched e matched =>
      exact counted ((tallies_keeps _).applyMatched (countsWrites_keeps _ e) matched)
  | cascadeTree c d rules top =>
      exact counted ((tallies_keeps _).cascadeTree (countsWrites_keeps _)
        (admits_keeps (d.subtree top)))
  | subscribe =>
      simp only [program]
      exact ensures_modifyStore (listening hl)
  | unsubscribe id =>
      simp only [program]
      exact ensures_modifyStore (listening hl)

theorem run_concat : run r (as ++ [action]) = perform (run r as) action := by
  rw [run, List.foldl_append]
  rfl

theorem linked_run (r : PropertyRegistry) (as : List StyleAction) : (run r as).store.Linked := by
  induction as using List.reverseRecOn with
  | nil => exact Store.ofRegistry_linked r
  | append_singleton as action ih =>
      rw [run_concat]
      exact (perform_keeps ih action).linked

theorem run_intact (r : PropertyRegistry) (as : List StyleAction) :
    let s := (run r as).store
    (∀ e p, s.parent? e = some p → s.contains p = true) ∧
      (∀ e, ¬Relation.TransGen (fun x y => s.parent? x = some y) e e) ∧
      (∀ e id, (s.slotAt e id).dependents.Nodup ∧
        ∀ d ∈ (s.slotAt e id).dependents, s.contains d = true ∧ s.parent? d = some e) ∧
      ∀ (action : StyleAction) (e : NodeId), e ∉ action.members →
        (perform (run r as) action).store.contains e = s.contains e := by
  intro s
  have hl : s.Linked := linked_run r as
  refine ⟨fun e p => hl.contains_parent, hl.rooted.acyclic, fun e id => ⟨hl.nodup e id, ?_⟩, ?_⟩
  · intro d hd
    exact ⟨Store.contains_of_parent? (hl.parent hd), hl.parent hd⟩
  · intro action e he
    exact (perform_keeps hl action).contains he

end StyleAction

end CssStyling
