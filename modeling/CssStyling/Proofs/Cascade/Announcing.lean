import CssStyling.Proofs.Cascade.Actions
import CssStyling.Proofs.Cascade.History

namespace CssStyling

open Store

namespace StyleChange

variable {r : PropertyRegistry} {changes : List StyleChange} {f : NodeId → PropertyId → Value}

def between (s s' : Store) (e : NodeId) (id : PropertyId) (p : PropertyDefinition) : StyleChange :=
  ⟨e, p.name, s.assigned e id, s'.assigned e id, p.dirt⟩

def replay (r : PropertyRegistry) (changes : List StyleChange)
    (f : NodeId → PropertyId → Value) : NodeId → PropertyId → Value :=
  changes.foldl (fun f c e id =>
    if c.element = e ∧ r.id? c.property = some id then c.new else f e id) f

end StyleChange

structure Announces (a b : Activity) (changes : List StyleChange) : Prop where
  registry : b.store.registry = a.store.registry
  subscriptions : b.store.subscriptions = a.store.subscriptions
  delivered : b.delivered =
    a.delivered ++ (changes.flatMap fun c => a.store.listeners.map (⟨·, c⟩)).toArray
  assigned : b.store.assigned = StyleChange.replay a.store.registry changes a.store.assigned

def Tells (a b : Activity) (e : NodeId) (name : String) : Prop :=
  ∃ id p, a.store.registry.id? name = some id ∧ a.store.registry.get? id = some p ∧
    Announces a b [.between a.store b.store e id p]

def Announced (a : Activity) (n : Nat) (b : Activity) : Prop :=
  ∃ changes : List StyleChange, changes.length = n ∧ Announces a b changes

namespace Announces

variable {a b c : Activity} {s : Store} {changes changes' : List StyleChange} {e x : NodeId}
  {id j : PropertyId} {p : PropertyDefinition} {slot : PropertySlot} {changed : Bool}

theorem listeners (h : Announces a b changes) : b.store.listeners = a.store.listeners :=
  congrArg Prod.fst h.subscriptions

theorem silent {asked : Array Question} (hr : s.registry = a.store.registry)
    (hs : s.subscriptions = a.store.subscriptions)
    (ha : ∀ e id, s.assigned e id = a.store.assigned e id) :
    Announces a ⟨s, asked, a.delivered⟩ [] where
  registry := hr
  subscriptions := hs
  delivered := by simp
  assigned := funext₂ ha

theorem refl (a : Activity) : Announces a a [] :=
  silent rfl rfl fun _ _ => rfl

theorem trans (h : Announces a b changes) (h' : Announces b c changes') :
    Announces a c (changes ++ changes') where
  registry := h'.registry.trans h.registry
  subscriptions := h'.subscriptions.trans h.subscriptions
  delivered := by
    rw [h'.delivered, h.delivered, h.listeners, List.flatMap_append, ← List.append_toArray,
      Array.append_assoc]
  assigned := by
    rw [h'.assigned, h.assigned, h.registry, StyleChange.replay, StyleChange.replay,
      StyleChange.replay, List.foldl_append]

theorem of_sameContents (h : SameContents a.store s) : Announces a { a with store := s } [] :=
  silent h.registry h.subscriptions fun e id => congrArg Prod.fst (h.content e id)

theorem of_insert {parent : Option NodeId} (h : a.store.insert e parent = .ok s) :
    Announces a { a with store := s } [] := by
  rcases insert_cases h with same | ⟨he, rfl⟩
  · exact of_sameContents same
  · refine silent rfl rfl fun x id => ?_
    rw [Store.assigned, slotAt_add he]
    rfl

theorem of_modifySlot {f : PropertySlot → PropertySlot}
    (hf : (f (a.store.slotAt e id)).assigned = a.store.assigned e id) :
    Announces a { a with store := a.store.modifySlot e id f } [] := by
  refine silent rfl rfl fun x j => ?_
  rw [Store.assigned, slotAt_modifySlot]
  split
  · rename_i hx
    rw [hf, hx.1, hx.2]
  · rfl

theorem assigned_written {s : Store} : (s.written e id slot changed).assigned x j =
    if e = x ∧ id = j then slot.assigned else s.assigned x j := by
  have written : ((s.written e id slot changed).content x j).1 =
      (if e = x ∧ id = j then slot.content else s.content x j).1 :=
    congrArg Prod.fst content_written
  rw [apply_ite Prod.fst] at written
  exact written

theorem of_same_value (h : slot.assigned = a.store.assigned e id) :
    Announces a (a.written e id p slot false) [] :=
  of_modifySlot h

theorem of_new_value (hp : a.store.registry.get? id = some p) :
    Announces a (a.written e id p slot true)
      [.between a.store (a.written e id p slot true).store e id p] where
  registry := registry_written
  subscriptions := subscriptions_written
  delivered := by
    have listeners : (a.store.written e id slot true).listeners = a.store.listeners :=
      congrArg Prod.fst subscriptions_written
    have new : (a.store.written e id slot true).assigned e id = slot.assigned := by
      rw [assigned_written, if_pos ⟨rfl, rfl⟩]
    simp only [Activity.written, StyleChange.between, listeners, new, List.flatMap_singleton,
      if_true]
  assigned := by
    funext x j
    have named : a.store.registry.id? p.name = some j ↔ id = j := by
      rw [PropertyRegistry.id?_name hp, Option.some_inj]
    simp only [StyleChange.replay, StyleChange.between, List.foldl_cons, List.foldl_nil, named,
      Activity.written, assigned_written, if_true, and_self]

end Announces

namespace StyleM

variable {a : Activity} {e : NodeId} {id : PropertyId} {name : String} {layout : Layout}
  {w : StyleM Bool}

theorem Writes.announces (h : Writes e name w) :
    Ensures w a (fun changed b => if changed then Tells a b e name else Announces a b [])
      fun _ b => Announces a b [] := by
  obtain ⟨hc⟩ := h
  refine ensures_write ?_ ?_ fun _ _ => .refl a
  · intro id p slot changed hid _ hp hchange
    cases changed with
    | false => exact .of_same_value ((hc p _ false slot hchange).assigned rfl)
    | true => exact ⟨id, p, hid, hp, .of_new_value hp⟩
  · intro id p error _ _ _ _
    exact .of_modifySlot rfl

theorem Writes.delivers (h : Writes e name w) {r : PropertyRegistry}
    (hr : a.store.registry = r) :
    Ensures w a
      (fun changed b => if changed then ∃ id p, r.id? name = some id ∧ r.get? id = some p ∧
          b.delivered = a.delivered ++
            (a.store.listeners.map (⟨·, .between a.store b.store e id p⟩)).toArray
        else b.delivered = a.delivered)
      fun _ b => b.delivered = a.delivered := by
  subst r
  refine h.announces.mono ?_ ?_
  · intro changed b hb
    cases changed with
    | false => simpa using hb.delivered
    | true =>
        obtain ⟨id, p, hid, hp, hb⟩ := hb
        refine ⟨id, p, hid, hp, ?_⟩
        rw [hb.delivered, List.flatMap_singleton]
  · intro error b hb
    simpa using hb.delivered

theorem Writes.announced (h : Writes e name w) :
    Ensures w a (fun changed => Announced a changed.toNat) fun _ => Announced a 0 := by
  refine h.announces.mono ?_ fun _ b hb => ⟨[], rfl, hb⟩
  intro changed b hb
  cases changed with
  | false => exact ⟨[], rfl, hb⟩
  | true =>
      obtain ⟨id, p, -, -, hb⟩ := hb
      exact ⟨_, rfl, hb⟩

theorem tallies_announced : Tallies Announced where
  refl a := ⟨[], rfl, .refl a⟩
  trans := by
    rintro a b c _ _ ⟨changes, rfl, h⟩ ⟨changes', rfl, h'⟩
    exact ⟨changes ++ changes', List.length_append, h.trans h'⟩

theorem countsWrites_announced (e : NodeId) : CountsWrites Announced e where
  reset _ name := (writes_reset e name).announced
  overwrite _ name source := (writes_overwrite e name source).announced

theorem admits_announced (es : List NodeId) : Admits Announced es :=
  fun _ _ _ _ _ hs => ⟨[], rfl, .of_insert hs⟩

theorem Writes.refused (h : Writes e name w) (he : a.store.contains e = false) :
    Ensures w a (fun _ b => b = a) fun _ b => b = a := by
  obtain ⟨-⟩ := h
  refine ensures_write ?_ ?_ fun _ _ => rfl
  · intro id p slot changed _ hc _ _
    simp [he] at hc
  · intro id p error _ hc _ _
    simp [he] at hc

theorem tallies_refused (e : NodeId) :
    Tallies fun a _ b => a.store.contains e = false → b = a where
  refl _ _ := rfl
  trans h h' he := by
    obtain rfl := h he
    exact h' he

theorem countsWrites_refused (e : NodeId) :
    CountsWrites (fun a _ b => a.store.contains e = false → b = a) e where
  reset _ name := Ensures.imp (writes_reset e name).refused
  overwrite _ name source := Ensures.imp (writes_overwrite e name source).refused

theorem applyMatched_of_unknown (he : a.store.contains e = false) (matched : List MatchedRule) :
    Ensures (applyMatched e matched) a (fun _ b => b = a) fun _ b => b = a :=
  ((tallies_refused e).applyMatched (countsWrites_refused e) matched a).mono
    (fun _ _ hb => hb he) fun _ _ ⟨_, hb⟩ => hb he

theorem uncounted_modifySlot {f : PropertySlot → PropertySlot}
    (hf : ∀ slot, (f slot).assigned = slot.assigned) :
    Uncounted Announced (modifyStore (·.modifySlot e id f)) :=
  fun _ => ensures_modifyStore ⟨[], rfl, .of_modifySlot (hf _)⟩

theorem uncounted_ask (questions : List Question) : Uncounted Announced (ask questions) :=
  fun _ => ensures_ask ⟨[], rfl, .silent rfl rfl fun _ _ => rfl⟩

theorem uncounted_definition (id : PropertyId) : Uncounted Announced (definition id) :=
  fun a => ensures_definition (fun _ _ => tallies_announced.refl a)
    fun _ _ => tallies_announced.refl a

theorem uncounted_propertyId (name : String) : Uncounted Announced (propertyId name) :=
  fun a => ensures_propertyId (fun _ _ => tallies_announced.refl a)
    fun _ _ => tallies_announced.refl a

theorem uncounted_keepSpecified (v : Value) : Uncounted Announced (keepSpecified e id v) :=
  tallies_announced.uncounted_bind (uncounted_modifySlot fun _ => rfl)
    fun _ => tallies_announced.uncounted_pure v

theorem uncounted_keepComputed (v : Value) : Uncounted Announced (keepComputed e id v) :=
  tallies_announced.uncounted_bind (uncounted_modifySlot fun _ => rfl)
    fun _ => tallies_announced.uncounted_pure v

theorem uncounted_addDependent {parent : NodeId} :
    Uncounted Announced (modifyStore (·.addDependent parent id e)) :=
  uncounted_modifySlot fun slot => slot.assigned_addDependent e

theorem uncounted_resolvePercentage (p : PropertyDefinition) (x : Float) :
    Uncounted Announced (resolvePercentage layout p e x) := by
  unfold resolvePercentage
  split
  · exact tallies_announced.uncounted_throw _
  · refine tallies_announced.uncounted_bind (uncounted_ask _) fun _ => ?_
    split
    · exact tallies_announced.uncounted_throw _
    · exact tallies_announced.uncounted_pure _

theorem uncounted_resolveLength (x : Float) (unit : LengthUnit) :
    Uncounted Announced (resolveLength layout e x unit) := by
  unfold resolveLength
  split
  · exact tallies_announced.uncounted_pure _
  · refine tallies_announced.uncounted_bind (uncounted_ask _) fun _ => ?_
    split
    · exact tallies_announced.uncounted_throw _
    · exact tallies_announced.uncounted_pure _

theorem uncounted_within (layout : Layout) (steps : Nat) :
    (∀ e id, Uncounted Announced (specifiedWithin layout steps e id)) ∧
      (∀ e id, Uncounted Announced (computedWithin layout steps e id)) ∧
      ∀ e id, Uncounted Announced (resolveAbove layout steps e id) := by
  have bind {α β : Type} {u : StyleM α} {f : α → StyleM β} (hu : Uncounted Announced u)
      (hf : ∀ v, Uncounted Announced (f v)) : Uncounted Announced (u >>= f) :=
    tallies_announced.uncounted_bind hu hf
  have done {α : Type} (v : α) : Uncounted Announced (pure v : StyleM α) :=
    tallies_announced.uncounted_pure v
  have store : Uncounted Announced store := tallies_announced.uncounted_store
  induction steps with
  | zero =>
      refine ⟨fun e id => ?_, fun e id => ?_, fun e id => done ()⟩
      · exact bind (uncounted_definition id) fun p => done p.initial
      · exact bind (uncounted_definition id) fun p => done p.initial
  | succ steps ih =>
      obtain ⟨specified, computed, above⟩ := ih
      refine ⟨fun e id => ?_, fun e id => ?_, fun e id => ?_⟩
      · rw [specifiedWithin]
        refine bind (uncounted_definition id) fun p => bind store fun s => ?_
        split
        · exact tallies_announced.uncounted_throw _
        · split
          · exact done _
          · split
            · split
              · split
                · exact bind (above _ id) fun _ => bind (computed _ id) fun v =>
                    bind uncounted_addDependent fun _ => uncounted_keepSpecified v
                · exact uncounted_keepSpecified _
              · exact uncounted_keepSpecified _
            · exact uncounted_keepSpecified _
      · rw [computedWithin]
        refine bind (uncounted_definition id) fun p => bind store fun s => ?_
        split
        · exact done _
        · refine bind (specified e id) fun v => ?_
          split
          · exact bind (uncounted_resolvePercentage p _) uncounted_keepComputed
          · exact bind (uncounted_resolveLength _ _) uncounted_keepComputed
          · refine bind store fun s => ?_
            split
            · exact bind (specified _ id) fun v =>
                bind uncounted_addDependent fun _ => uncounted_keepComputed v
            · exact uncounted_keepComputed _
          · exact uncounted_keepComputed _
      · rw [resolveAbove]
        refine bind store fun s => ?_
        split
        · exact done ()
        · split
          · split
            · exact bind (above _ id) fun _ => bind (computed _ id) fun _ => done ()
            · exact bind (computed _ id) fun _ => done ()
          · exact done ()

theorem uncounted_readById (stage : Stage) :
    Uncounted Announced (readById stage layout e id) := by
  have steps : Uncounted Announced steps :=
    tallies_announced.uncounted_bind tallies_announced.uncounted_store fun _ =>
      tallies_announced.uncounted_pure _
  cases stage with
  | specified =>
      exact tallies_announced.uncounted_bind steps fun n => (uncounted_within layout n).1 e id
  | computed =>
      exact tallies_announced.uncounted_bind steps fun n => (uncounted_within layout n).2.1 e id

theorem uncounted_read (stage : Stage) : Uncounted Announced (read stage layout e name) := by
  rw [read_eq]
  exact tallies_announced.uncounted_bind (uncounted_propertyId name) fun _ =>
    uncounted_readById stage

end StyleM

end CssStyling
