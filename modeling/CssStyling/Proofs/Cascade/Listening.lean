import CssStyling.Proofs.Cascade.Announcing

namespace CssStyling

open Store StyleChange

namespace Activity

def heard (a : Activity) (l : SubscriptionId) : List StyleChange :=
  (a.delivered.toList.filter (·.subscription == l)).map (·.change)

end Activity

theorem heard_deliveries {ls : List SubscriptionId} (hn : ls.Nodup) (l : SubscriptionId)
    (changes : List StyleChange) :
    ((changes.flatMap fun c => ls.map (⟨·, c⟩)).filter (·.subscription == l)).map
      Delivery.change = if l ∈ ls then changes else [] := by
  have once (c : StyleChange) : ((ls.map (⟨·, c⟩)).filter (·.subscription == l)).map
      Delivery.change = if l ∈ ls then [c] else [] := by
    have same : ((·.subscription == l) ∘ fun l => (⟨l, c⟩ : Delivery)) = (· == l) := rfl
    rw [List.filter_map, same, List.filter_beq, hn.count]
    split <;> rfl
  induction changes with
  | nil => simp
  | cons c changes ih =>
      rw [List.flatMap_cons, List.filter_append, List.map_append, once, ih]
      split <;> rfl

theorem Announces.heard {a b : Activity} {changes : List StyleChange}
    (h : Announces a b changes) (hn : a.store.listeners.Nodup) (l : SubscriptionId) :
    b.heard l = a.heard l ++ if l ∈ a.store.listeners then changes else [] := by
  rw [Activity.heard, h.delivered, Array.toList_append, List.filter_append, List.map_append,
    heard_deliveries hn, Activity.heard]

theorem Announced.heard_length {a b : Activity} {n : Nat} {l : SubscriptionId}
    (h : Announced a n b) (hn : a.store.listeners.Nodup) (hl : l ∈ a.store.listeners) :
    (b.heard l).length = (a.heard l).length + n := by
  obtain ⟨changes, rfl, announces⟩ := h
  rw [announces.heard hn, if_pos hl, List.length_append]

namespace StyleAction

open StyleM

variable {r : PropertyRegistry} {a b : Activity} {action : StyleAction} {l : SubscriptionId}
  {as before after : List StyleAction}

def writes : StyleAction → Bool
  | operate o => o.writes
  | applyMatched .. => true
  | cascadeTree .. => true
  | _ => false

def subscribes : StyleAction → Bool
  | subscribe => true
  | _ => false

inductive Performs (a : Activity) : StyleAction → Activity → Prop where
  | announce {action : StyleAction} {b : Activity} {changes : List StyleChange} :
      action.subscribes = false → (∀ l, action ≠ .unsubscribe l) →
      (action.writes = false → changes = []) → Announces a b changes → Performs a action b
  | remove {e : NodeId} {b : Activity} : b.store.registry = a.store.registry →
      b.store.subscriptions = a.store.subscriptions → b.delivered = a.delivered →
      (∀ x id, b.store.assigned x id = a.store.assigned x id ∨ b.store.assigned x id = .unset) →
      Performs a (.operate (.remove e)) b
  | subscribe : Performs a .subscribe { a with store := a.store.subscribe.2 }
  | unsubscribe (l : SubscriptionId) :
      Performs a (.unsubscribe l) { a with store := (a.store.unsubscribe l).2 }

theorem performs_of_uncounted (h : Uncounted Announced action.program)
    (hs : action.subscribes = false) (hu : ∀ l, action ≠ .unsubscribe l) :
    Performs a action (perform a action) := by
  have announced {b : Activity} (hb : Announced a 0 b) : Performs a action b := by
    obtain ⟨changes, hn, hb⟩ := hb
    exact .announce hs hu (fun _ => List.eq_nil_of_length_eq_zero hn) hb
  exact after_of_ensures ((h a).mono (fun _ _ => announced) fun _ _ => announced)

theorem performs_of_writes (h : Ensures action.program a (fun _ b => ∃ n, Announced a n b)
      fun _ b => ∃ n, Announced a n b) (hw : action.writes = true)
    (hs : action.subscribes = false) (hu : ∀ l, action ≠ .unsubscribe l) :
    Performs a action (perform a action) := by
  have announced {b : Activity} (hb : ∃ n, Announced a n b) : Performs a action b := by
    obtain ⟨n, changes, -, hb⟩ := hb
    exact .announce hs hu (fun hn => by simp [hw] at hn) hb
  exact after_of_ensures (h.mono (fun _ _ => announced) fun _ _ => announced)

theorem performs_of_remove (e : NodeId) :
    Performs a (.operate (.remove e)) (perform a (.operate (.remove e))) := by
  refine after_of_ensures (P := Performs a (.operate (.remove e))) ?_
  refine ensures_apply (fun s hs => ?_) fun _ _ => .remove rfl rfl rfl fun _ _ => .inl rfl
  obtain ⟨t, ht, hs'⟩ := remove_cases hs
  refine .remove (hs'.registry.trans ht.registry) (hs'.subscriptions.trans ht.subscriptions) rfl ?_
  intro x id
  have kept_or_cleared : s.content x id = a.store.content x id ∨ s.content x id = (.unset, none) :=
    remove_content hs
  rcases kept_or_cleared with same | cleared
  · exact .inl (congrArg Prod.fst same)
  · exact .inr (congrArg Prod.fst cleared)

theorem operate_performs (a : Activity) (o : StyleOperation) :
    Performs a (.operate o) (perform a (.operate o)) := by
  have silent (h : Uncounted Announced o.program) :
      Performs a (.operate o) (perform a (.operate o)) :=
    performs_of_uncounted h rfl fun _ h => by cases h
  have writes {e : NodeId} {name : String} {w : StyleM Bool} (hw : Writes e name w)
      (hp : o.program = discard w) (ho : o.writes = true) :
      Performs a (.operate o) (perform a (.operate o)) := by
    refine performs_of_writes ?_ ho rfl fun _ h => by cases h
    rw [program, hp]
    exact ensures_discard (hw.announced.mono (fun _ _ hb => ⟨_, hb⟩) fun _ _ hb => ⟨_, hb⟩)
  cases o with
  | insert e parent =>
      exact silent fun a => ensures_apply (fun s hs => ⟨[], rfl, .of_insert hs⟩)
        fun _ _ => tallies_announced.refl a
  | setParent e parent =>
      exact silent fun a => ensures_apply
        (fun s hs => ⟨[], rfl, .of_sameContents (setParent_sameContents hs)⟩)
        fun _ _ => tallies_announced.refl a
  | remove e => exact performs_of_remove e
  | assign e name value provenance => exact writes (writes_assign e name value provenance) rfl rfl
  | cascade e name source => exact writes (writes_cascade e name source) rfl rfl
  | overwrite e name source => exact writes (writes_overwrite e name source) rfl rfl
  | reset e name => exact writes (writes_reset e name) rfl rfl
  | invalidateElement e =>
      refine silent fun a => ?_
      simp only [StyleOperation.program]
      exact ensures_modifyStore ⟨[], rfl, .of_sameContents invalidateElement_sameContents⟩
  | invalidateAll =>
      refine silent fun a => ?_
      simp only [StyleOperation.program]
      exact ensures_modifyStore ⟨[], rfl, .of_sameContents invalidateAll_sameContents⟩
  | read stage layout e name => exact silent fun a => ensures_discard (uncounted_read stage a)
  | readById stage layout e id =>
      exact silent fun a => ensures_discard (uncounted_readById stage a)

theorem performs (a : Activity) (action : StyleAction) :
    Performs a action (perform a action) := by
  have counted {x : StyleM Nat} (hx : Counts Announced x) :
      Ensures (discard x) a (fun _ b => ∃ n, Announced a n b) fun _ b => ∃ n, Announced a n b :=
    ensures_discard ((hx a).mono (fun n _ hb => ⟨n, hb⟩) fun _ _ hb => hb)
  cases action with
  | operate o => exact operate_performs a o
  | insertTree d top =>
      exact performs_of_uncounted (tallies_announced.plant (admits_announced _)) rfl
        fun _ h => by cases h
  | applyMatched e matched =>
      exact performs_of_writes
        (counted (tallies_announced.applyMatched (countsWrites_announced e) matched)) rfl rfl
        fun _ h => by cases h
  | cascadeTree c d rules top =>
      exact performs_of_writes (counted (tallies_announced.cascadeTree countsWrites_announced
        (admits_announced _))) rfl rfl fun _ h => by cases h
  | subscribe => exact .subscribe
  | unsubscribe l => exact .unsubscribe l

structure Attended (s : Store) : Prop where
  increasing : s.listeners.Pairwise (· < ·)
  below {l : SubscriptionId} : l ∈ s.listeners → l < s.nextSubscription

theorem Attended.nodup {s : Store} (h : Attended s) : s.listeners.Nodup :=
  h.increasing.imp Nat.ne_of_lt

theorem Attended.congr {s s' : Store} (h : Attended s) (hs : s'.subscriptions = s.subscriptions) :
    Attended s' := by
  obtain ⟨hls, hn⟩ := Prod.mk.inj hs
  refine ⟨?_, fun {l} hl => ?_⟩
  · rw [hls]
    exact h.increasing
  · rw [hn]
    exact h.below (hls ▸ hl)

theorem Attended.performs (h : Attended a.store) (hb : Performs a action b) :
    Attended b.store := by
  cases hb with
  | announce _ _ _ hb => exact h.congr hb.subscriptions
  | remove _ hs => exact h.congr hs
  | subscribe =>
      refine ⟨List.pairwise_append.mpr ⟨h.increasing, List.pairwise_singleton .., ?_⟩, ?_⟩
      · intro l hl l' hl'
        rw [List.mem_singleton.mp hl']
        exact h.below hl
      · intro l hl
        rcases List.mem_append.mp hl with hl | hl
        · exact Nat.lt_succ_of_lt (h.below hl)
        · rw [List.mem_singleton.mp hl]
          exact Nat.lt_succ_self _
  | unsubscribe l =>
      exact ⟨h.increasing.filter _, fun hl => h.below (List.mem_of_mem_filter hl)⟩

theorem run_attended (r : PropertyRegistry) (as : List StyleAction) :
    Attended (run r as).store := by
  induction as using List.reverseRecOn with
  | nil => exact ⟨.nil, fun h => absurd h List.not_mem_nil⟩
  | append_singleton as action ih =>
      rw [run_concat]
      exact ih.performs (performs _ action)

def Subscribed (r : PropertyRegistry) (as : List StyleAction) (l : SubscriptionId) : Prop :=
  ∃ before after, as = before ++ .subscribe :: after ∧ (run r before).store.subscribe.1 = l ∧
    .unsubscribe l ∉ after

theorem subscribed_concat : Subscribed r (as ++ [action]) l ↔
    Subscribed r as l ∧ action ≠ .unsubscribe l ∨
      action = .subscribe ∧ (run r as).store.subscribe.1 = l := by
  constructor
  · rintro ⟨before, after, has, hl, hafter⟩
    rcases List.eq_nil_or_concat after with rfl | ⟨after, x, rfl⟩
    · obtain ⟨rfl, hx⟩ := List.append_inj' has rfl
      obtain rfl := List.singleton_inj.mp hx
      exact .inr ⟨rfl, hl⟩
    · rw [List.concat_eq_append, ← List.cons_append, ← List.append_assoc] at has
      obtain ⟨rfl, hx⟩ := List.append_inj' has rfl
      obtain rfl := List.singleton_inj.mp hx
      simp only [List.concat_eq_append, List.mem_append, List.mem_singleton, not_or] at hafter
      exact .inl ⟨⟨before, after, rfl, hl, hafter.1⟩, fun h => hafter.2 h.symm⟩
  · rintro (⟨⟨before, after, rfl, hl, hafter⟩, hx⟩ | ⟨rfl, hl⟩)
    · refine ⟨before, after ++ [action], by simp, hl, fun hmem => ?_⟩
      rcases List.mem_append.mp hmem with hmem | hmem
      · exact hafter hmem
      · exact hx (List.mem_singleton.mp hmem).symm
    · exact ⟨as, [], rfl, hl, List.not_mem_nil⟩

theorem mem_listeners_run (r : PropertyRegistry) (as : List StyleAction) (l : SubscriptionId) :
    l ∈ (run r as).store.listeners ↔ Subscribed r as l := by
  induction as using List.reverseRecOn with
  | nil =>
      refine iff_of_false List.not_mem_nil ?_
      rintro ⟨before, after, h, -⟩
      simp at h
  | append_singleton as action ih =>
      rw [run_concat, subscribed_concat, ← ih]
      have same {b : Activity} (hs : b.store.subscriptions = (run r as).store.subscriptions) :
          b.store.listeners = (run r as).store.listeners := congrArg Prod.fst hs
      have hb := performs (run r as) action
      generalize perform (run r as) action = b at hb
      cases hb with
      | announce hsub hun _ hb =>
          rw [hb.listeners]
          have hne : action ≠ .subscribe := by
            rintro rfl
            cases hsub
          simp [hne, hun]
      | remove _ hs => simp [same hs]
      | subscribe => simp [Store.subscribe, @eq_comm _ l]
      | unsubscribe l' => simp [Store.unsubscribe, @eq_comm _ l]

theorem nextSubscription_run (r : PropertyRegistry) (as : List StyleAction) :
    (run r as).store.subscribe.1 = as.countP subscribes := by
  induction as using List.reverseRecOn with
  | nil => rfl
  | append_singleton as action ih =>
      have next : (run r as).store.nextSubscription = as.countP subscribes := ih
      rw [run_concat, List.countP_append, List.countP_singleton, ← next, Store.subscribe]
      have hb := performs (run r as) action
      generalize perform (run r as) action = b at hb
      cases hb with
      | announce hsub _ _ hb =>
          rw [hsub]
          exact congrArg Prod.snd hb.subscriptions
      | remove _ hs => exact congrArg Prod.snd hs
      | subscribe => rfl
      | unsubscribe => rfl

structure Follows (r : PropertyRegistry) (l : SubscriptionId) (a : Activity) : Prop where
  registry : a.store.registry = r
  listening : l ∈ a.store.listeners
  replayed : replay r (a.heard l) (fun _ _ => .unset) = a.store.assigned

theorem Follows.performs (h : Follows r l a) (ha : Attended a.store) (hb : Performs a action b)
    (hr : ∀ e, action ≠ .operate (.remove e)) (hu : action ≠ .unsubscribe l) :
    Follows r l b := by
  cases hb with
  | @announce _ _ changes _ _ _ hb =>
      refine ⟨hb.registry.trans h.registry, hb.listeners ▸ h.listening, ?_⟩
      rw [hb.heard ha.nodup, if_pos h.listening, hb.assigned, h.registry, ← h.replayed, replay,
        List.foldl_append]
      rfl
  | remove => exact absurd rfl (hr _)
  | subscribe => exact ⟨h.registry, List.mem_append_left _ h.listening, h.replayed⟩
  | unsubscribe l' =>
      have hne : l ≠ l' := fun hl => hu (hl ▸ rfl)
      exact ⟨h.registry, List.mem_filter.mpr ⟨h.listening, by simpa using hne⟩, h.replayed⟩

structure Untold (r : PropertyRegistry) (a : Activity) : Prop where
  registry : a.store.registry = r
  delivered : a.delivered = #[]
  assigned (e : NodeId) (id : PropertyId) : a.store.assigned e id = .unset

theorem Untold.performs (h : Untold r a) (hb : Performs a action b)
    (hw : action.writes = false) : Untold r b := by
  cases hb with
  | announce _ _ hsilent hb =>
      obtain rfl := hsilent hw
      refine ⟨hb.registry.trans h.registry, ?_, fun e id => ?_⟩
      · rw [hb.delivered, h.delivered]
        rfl
      · rw [hb.assigned]
        exact h.assigned e id
  | remove hreg _ hd ha =>
      refine ⟨hreg.trans h.registry, hd.trans h.delivered, fun e id => ?_⟩
      rcases ha e id with same | cleared
      · exact same.trans (h.assigned e id)
      · exact cleared
  | subscribe => exact ⟨h.registry, h.delivered, h.assigned⟩
  | unsubscribe => exact ⟨h.registry, h.delivered, h.assigned⟩

theorem run_untold (h : ∀ action ∈ as, action.writes = false) : Untold r (run r as) := by
  induction as using List.reverseRecOn with
  | nil =>
      refine ⟨rfl, rfl, fun e id => ?_⟩
      rw [run, List.foldl_nil, assigned, slotAt_ofRegistry]
      rfl
  | append_singleton as action ih =>
      rw [run_concat]
      have before := ih fun x hx => h x (List.mem_append_left _ hx)
      exact before.performs (performs _ action) (h action (by simp))

theorem Untold.follows (h : Untold r a) :
    Follows r a.store.subscribe.1 { a with store := a.store.subscribe.2 } where
  registry := h.registry
  listening := List.mem_append_right _ List.mem_cons_self
  replayed := by
    rw [Activity.heard, h.delivered]
    exact (funext₂ h.assigned).symm

theorem run_follows (hb : ∀ action ∈ before, action.writes = false)
    (hr : ∀ e, .operate (.remove e) ∉ after) (hu : .unsubscribe l ∉ after)
    (hl : (run r before).store.subscribe.1 = l) :
    Follows r l (run r (before ++ .subscribe :: after)) := by
  induction after using List.reverseRecOn with
  | nil =>
      rw [run_concat]
      exact hl ▸ (run_untold hb).follows
  | append_singleton after action ih =>
      rw [← List.cons_append, ← List.append_assoc, run_concat]
      have follows := ih (fun e he => hr e (List.mem_append_left _ he))
        fun h => hu (List.mem_append_left _ h)
      refine follows.performs (run_attended r _) (performs _ action) ?_ ?_
      · rintro e rfl
        exact hr e (by simp)
      · rintro rfl
        exact hu (by simp)

theorem registry_run (r : PropertyRegistry) (as : List StyleAction) :
    (run r as).store.registry = r := by
  induction as using List.reverseRecOn with
  | nil => rfl
  | append_singleton as action ih =>
      rw [run_concat]
      cases performs (run r as) action with
      | announce _ _ _ hb => exact hb.registry.trans ih
      | remove hreg => exact hreg.trans ih
      | subscribe => exact ih
      | unsubscribe => exact ih

theorem perform_silent (a : Activity) (hw : action.writes = false) :
    (perform a action).delivered = a.delivered := by
  cases performs a action with
  | announce _ _ hsilent hb =>
      rw [hsilent hw] at hb
      simpa using hb.delivered
  | remove _ _ hd => exact hd
  | subscribe => rfl
  | unsubscribe => rfl

theorem applyMatched_error (hl : a.store.Linked) {e : NodeId} {matched : List MatchedRule} :
    Ensures (StyleM.applyMatched e matched) a (fun _ _ => True)
      fun _ b => b.delivered = a.delivered := by
  cases he : a.store.contains e with
  | true =>
      have pass : Ensures (StyleM.applyMatched e matched) a (fun _ b => Passed a.store b.store
          (fun _ => winning a.store.registry matched) [e]) fun _ _ => False :=
        ensures_applyMatched hl he rfl
      exact pass.mono (fun _ _ _ => trivial) fun _ _ h => h.elim
  | false =>
      exact (applyMatched_of_unknown he matched).mono (fun _ _ _ => trivial)
        fun _ _ hb => congrArg Activity.delivered hb

theorem applyMatched_heard (hl : a.store.Linked) (ha : Attended a.store) (e : NodeId)
    (matched : List MatchedRule) : Ensures (StyleM.applyMatched e matched) a
      (fun n b => ∀ l ∈ a.store.listeners, (b.heard l).length = (a.heard l).length + n)
      fun _ b => b.delivered = a.delivered := by
  have counts := tallies_announced.applyMatched (countsWrites_announced e) matched a
  refine (counts.and (applyMatched_error hl)).mono ?_ fun _ _ hb => hb.2
  exact fun n b hb l => Announced.heard_length hb.1 ha.nodup

theorem cascadeTree_heard (hl : a.store.Linked) (ha : Attended a.store) (c : MatchingContext)
    (d : Document) (rules : List Rule) (top : NodeId) :
    Ensures (StyleM.cascadeTree c d rules top) a
      (fun n b => ∀ l ∈ a.store.listeners, (b.heard l).length = (a.heard l).length + n)
      fun _ _ => ¬d.Reached := by
  have counts : Counts Announced (StyleM.cascadeTree c d rules top) :=
    tallies_announced.cascadeTree countsWrites_announced (admits_announced (d.subtree top))
  have succeeds (hd : d.Reached) : Ensures (StyleM.cascadeTree c d rules top) a
      (fun _ _ => True) fun _ _ => False :=
    (ensures_cascadeTree hl hd.linked).mono (fun _ _ _ => trivial) fun _ _ h => h
  refine ((counts a).and (Ensures.imp succeeds)).mono ?_ fun _ _ hb hd => hb.2 hd
  exact fun n b hb l => Announced.heard_length hb.1 ha.nodup

theorem run_announces (r : PropertyRegistry) (as : List StyleAction) :
    let a := run r as
    (a.store.listeners.Pairwise (· < ·) ∧ a.store.subscribe.1 = as.countP subscribes ∧
      ∀ l, l ∈ a.store.listeners ↔ Subscribed r as l) ∧
    (∀ e name value provenance source,
      ∀ write ∈ [assign e name value provenance, cascade e name source, overwrite e name source,
        reset e name], Ensures write a
          (fun changed b => if changed then ∃ id p, r.id? name = some id ∧ r.get? id = some p ∧
              b.delivered = a.delivered ++
                (a.store.listeners.map (⟨·, between a.store b.store e id p⟩)).toArray
            else b.delivered = a.delivered)
          fun _ b => b.delivered = a.delivered) ∧
    (∀ action : StyleAction, action.writes = false →
      (perform a action).delivered = a.delivered) ∧
    (∀ before after l, as = before ++ .subscribe :: after →
      (run r before).store.subscribe.1 = l → (∀ action ∈ before, action.writes = false) →
      (∀ e, .operate (.remove e) ∉ after) → .unsubscribe l ∉ after →
        replay r (a.heard l) (fun _ _ => .unset) = a.store.assigned) ∧
    (∀ e matched, Ensures (StyleM.applyMatched e matched) a
      (fun n b => ∀ l ∈ a.store.listeners, (b.heard l).length = (a.heard l).length + n)
      fun _ b => b.delivered = a.delivered) ∧
    ∀ c d rules top, Ensures (StyleM.cascadeTree c d rules top) a
      (fun n b => ∀ l ∈ a.store.listeners, (b.heard l).length = (a.heard l).length + n)
      fun _ _ => ¬d.Reached := by
  intro a
  have linked : a.store.Linked := linked_run r as
  have attended : Attended a.store := run_attended r as
  have hr : a.store.registry = r := registry_run r as
  refine ⟨⟨attended.increasing, nextSubscription_run r as, mem_listeners_run r as⟩,
    ?_, fun _ => perform_silent a, ?_, applyMatched_heard linked attended,
    cascadeTree_heard linked attended⟩
  · intro e name value provenance source write hwrite
    simp only [List.mem_cons, List.not_mem_nil, or_false] at hwrite
    rcases hwrite with rfl | rfl | rfl | rfl
    · exact (writes_assign e name value provenance).delivers hr
    · exact (writes_cascade e name source).delivers hr
    · exact (writes_overwrite e name source).delivers hr
    · exact (writes_reset e name).delivers hr
  · rintro before after l rfl hl hbefore hr hu
    exact (run_follows hbefore hr hu hl).replayed

example : (run StyleOperation.ink [.subscribe, .operate (.insert ⟨0, 1⟩ none),
    .operate (.assign ⟨0, 1⟩ "color" (.keyword "red") none),
    .operate (.assign ⟨0, 1⟩ "color" (.keyword "red") none),
    .operate (.reset ⟨0, 1⟩ "color")]).heard 0 =
      [⟨⟨0, 1⟩, "color", .unset, .keyword "red", 0⟩,
        ⟨⟨0, 1⟩, "color", .keyword "red", .unset, 0⟩] := by
  cbv

end StyleAction

end CssStyling
