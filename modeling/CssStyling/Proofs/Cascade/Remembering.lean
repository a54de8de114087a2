import CssStyling.Proofs.Cascade.Actions
import CssStyling.Proofs.Store.Refusing

namespace CssStyling

namespace StyleM

open Store

variable {a b : Activity} {stage : Stage} {layout : Layout} {e : NodeId} {id : PropertyId}
  {name : String} {p : PropertyDefinition} {v : Value} {n : Nat} {x : StyleM Value}

def Recalls (v : Value) (x : StyleM Value) (a : Activity) : Prop :=
  Ensures x a (fun w b => w = v ∧ b = a) fun _ _ => False

theorem Recalls.eq_ok (h : Recalls v x a) : x a = .ok v a := by
  obtain ⟨w, b, hx, rfl, rfl⟩ := Ensures.exists_ok h
  exact hx

theorem recalls_after_definition {f : PropertyDefinition → StyleM Value}
    (hp : a.store.registry.get? id = some p) (h : ∀ p, Recalls v (f p) a) :
    Recalls v (definition id >>= f) a := by
  refine ensures_bind (ensures_definition (fun q _ => h q) fun hn => ?_)
  rw [hp] at hn
  cases hn

theorem specifiedWithin_recalls (hp : a.store.registry.get? id = some p)
    (hv : (a.store.slotAt e id).specified = some v) :
    Recalls v (specifiedWithin layout (n + 1) e id) a := by
  have hne : a.store.slotAt e id ≠ .empty := by
    intro h
    rw [h] at hv
    cases hv
  obtain ⟨element, helement⟩ := Option.isSome_iff_exists.mp (contains_of_slotAt_ne hne)
  rw [specifiedWithin]
  refine recalls_after_definition hp fun _ => ensures_bind (ensures_store ?_)
  simp only [helement, slot?_bind_specified, hv]
  exact ensures_pure ⟨rfl, rfl⟩

theorem computedWithin_recalls (hp : a.store.registry.get? id = some p)
    (hv : (a.store.slotAt e id).computed = some v) :
    Recalls v (computedWithin layout (n + 1) e id) a := by
  rw [computedWithin]
  refine recalls_after_definition hp fun _ => ensures_bind (ensures_store ?_)
  simp only [slot?_bind_computed, hv]
  exact ensures_pure ⟨rfl, rfl⟩

theorem readById_recalls (hp : a.store.registry.get? id = some p)
    (hv : (a.store.slotAt e id).cached stage = some v) :
    Recalls v (readById stage layout e id) a := by
  cases stage with
  | specified =>
      refine ensures_bind (ensures_bind (ensures_store (ensures_pure ?_)))
      exact specifiedWithin_recalls hp hv
  | computed =>
      refine ensures_bind (ensures_bind (ensures_store (ensures_pure ?_)))
      exact computedWithin_recalls hp hv

theorem read_recalls (hid : a.store.registry.id? name = some id)
    (h : Recalls v (readById stage layout e id) a) : Recalls v (read stage layout e name) a := by
  rw [read_eq]
  refine ensures_bind (ensures_propertyId (fun j hj => ?_) fun hn => ?_)
  · obtain rfl := Option.some.inj (hid.symm.trans hj)
    exact h
  · rw [hid] at hn
    cases hn

theorem exists_definition_of_readById (h : readById stage layout e id a = .ok v b) :
    ∃ p, a.store.registry.get? id = some p := by
  by_contra hn
  have fails : Ensures (readById stage layout e id) a (fun _ _ => False) fun _ _ => True := by
    cases stage
    all_goals
      refine ensures_bind (ensures_bind (ensures_store (ensures_pure ?_)))
      first | rw [specifiedWithin] | rw [computedWithin]
      exact ensures_bind (ensures_definition (fun p hp => absurd ⟨p, hp⟩ hn) fun _ _ => trivial)
  exact fails.of_ok h

end StyleM

theorem StyleOperation.Changes.grown {s s' : Store} {o : StyleOperation} (h : Changes s o s')
    (ho : o.reads = true) : s.Grown s' := by
  cases h with
  | refused => exact .refl s
  | write hw => simp [StyleOperation.writes_of_reads ho] at hw
  | read hr | readById hr => exact hr.grown
  | insert | setParent | remove | invalidateElement | invalidateAll => cases ho

namespace StyleAction

open StyleM

variable {a b : Activity} {action : StyleAction} {between : List StyleAction} {stage : Stage}
  {layout layout' : Layout} {e : NodeId} {id : PropertyId} {name : String} {v : Value}

def observes : StyleAction → Bool
  | operate o => o.reads
  | subscribe => true
  | unsubscribe _ => true
  | _ => false

theorem perform_grown (hl : a.store.Linked) (h : action.observes = true) :
    a.store.Grown (perform a action).store := by
  have listening {ls : List SubscriptionId} {n : SubscriptionId} :
      a.store.Grown { a.store with listeners := ls, nextSubscription := n } :=
    ⟨rfl, fun _ => rfl, fun _ => rfl, fun _ _ => rfl, fun _ _ => rfl, id, id⟩
  refine after_of_ensures (P := fun b => a.store.Grown b.store) ?_
  cases action with
  | operate o =>
      exact (o.program_changes hl).mono (fun _ _ hb => hb.grown h) fun _ _ hb => hb.grown h
  | subscribe | unsubscribe =>
      simp only [program]
      exact ensures_modifyStore listening
  | insertTree | applyMatched | cascadeTree => cases h

theorem foldl_grown (hl : a.store.Linked) (h : ∀ action ∈ between, action.observes = true) :
    a.store.Grown (between.foldl perform a).store := by
  induction between generalizing a with
  | nil => exact .refl a.store
  | cons action between ih =>
      obtain ⟨first, rest⟩ := List.forall_mem_cons.mp h
      exact (perform_grown hl first).trans (ih (perform_keeps hl action).linked rest)

theorem readById_recalled (hl : a.store.Linked) (h : readById stage layout e id a = .ok v b)
    (hb : ∀ action ∈ between, action.observes = true) :
    Recalls v (readById stage layout' e id) (between.foldl perform b) := by
  obtain ⟨p, hp⟩ := exists_definition_of_readById h
  obtain ⟨reads, kept⟩ := (ensures_readById hl).of_ok h
  have grown := foldl_grown (reads.linked hl) hb
  refine readById_recalls (p := p) ?_ (grown.cached kept)
  rwa [grown.registry, reads.grown.registry]

theorem read_recalled (hl : a.store.Linked) (h : read stage layout e name a = .ok v b)
    (hb : ∀ action ∈ between, action.observes = true) :
    Recalls v (read stage layout' e name) (between.foldl perform b) := by
  obtain ⟨id, hid, h⟩ := exists_id_of_read h
  have reads := ((ensures_readById hl).of_ok h).1
  have grown := foldl_grown (reads.linked hl) hb
  have hid' : (between.foldl perform b).store.registry.id? name = some id := by
    rwa [grown.registry, reads.grown.registry]
  exact read_recalls hid' (readById_recalled hl h hb)

theorem run_remembers (r : PropertyRegistry) (as : List StyleAction) :
    let a := run r as
    (∀ stage layout e name v b, read stage layout e name a = .ok v b →
      ∀ (layout' : Layout) (between : List StyleAction),
        (∀ action ∈ between, action.observes = true) →
        let c := between.foldl perform b
        read stage layout' e name c = .ok v c) ∧
    (∀ stage layout e id v b, readById stage layout e id a = .ok v b →
      ∀ (layout' : Layout) (between : List StyleAction),
        (∀ action ∈ between, action.observes = true) →
        let c := between.foldl perform b
        readById stage layout' e id c = .ok v c) ∧
    ∀ o : StyleOperation, o.reads = true → a.store.Grown (perform a (.operate o)).store := by
  intro a
  have linked : a.store.Linked := linked_run r as
  refine ⟨?_, ?_, fun o ho => perform_grown linked ho⟩
  · intro stage layout e name v b h layout' between hb
    exact (read_recalled linked h hb).eq_ok
  · intro stage layout e id v b h layout' between hb
    exact (readById_recalled linked h hb).eq_ok

end StyleAction

end CssStyling
