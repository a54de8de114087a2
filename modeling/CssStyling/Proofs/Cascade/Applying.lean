import CssStyling.Proofs.Cascade.Winning
import CssStyling.Proofs.Store.Contents
import CssStyling.Proofs.Store.Operations
import Mathlib

namespace CssStyling

namespace PropertyRegistry

variable {r : PropertyRegistry} {p : PropertyDefinition} {id : PropertyId}

theorem id?_name (h : r.get? id = some p) : r.id? p.name = some id := by
  obtain ⟨hlt, rfl⟩ := Array.getElem?_eq_some_iff.mp h
  have exact : r.exactId? r.definitions[id].name = some id := by
    refine Array.findIdx?_eq_some_iff_getElem.mpr ⟨hlt, by simp, fun j hj => ?_⟩
    have hne := List.pairwise_iff_getElem.mp r.names_nodup j id (by simp; omega) (by simpa) hj
    simpa using hne
  simp [id?, exact]

theorem lt_size (h : r.get? id = some p) : id < r.size :=
  (Array.getElem?_eq_some_iff.mp h).1

end PropertyRegistry

namespace Store

variable {s s' : Store} {e : NodeId} {id : PropertyId} {ids : List PropertyId} {m n : Nat}
  {u : PropertyId → Option (Bool × Content)} {slot : PropertySlot} {changed : Bool}

structure Updated (s s' : Store) (e : NodeId) (u : PropertyId → Option (Bool × Content))
    (ids : List PropertyId) (n : Nat) : Prop where
  registry : s'.registry = s.registry
  contains (x : NodeId) : s'.contains x = s.contains x
  content (x : NodeId) (j : PropertyId) : s'.content x j =
    if x = e ∧ j ∈ ids then ((u j).map Prod.snd).getD (s.content e j) else s.content x j
  count : n = ids.countP fun id => (u id).any Prod.fst

namespace Updated

theorem nil : Updated s s e u [] 0 :=
  ⟨rfl, fun _ => rfl, by simp, rfl⟩

theorem skip (h : Updated s s' e u ids n) (hu : u id = none) : Updated s s' e u (id :: ids) n where
  registry := h.registry
  contains := h.contains
  content x j := by
    rw [h.content]
    by_cases hj : j = id
    · by_cases hx : x = e <;> simp [hj, hx, hu]
    · simp [hj]
  count := by simp [h.count, hu]

theorem write (h : Updated (s.written e id slot changed) s' e u ids n)
    (he : s.contains e = true) (hu : u id = some (changed, slot.content)) (hid : id ∉ ids) :
    Updated s s' e u (id :: ids) ((if changed then 1 else 0) + n) where
  registry := h.registry.trans registry_written
  contains x := (h.contains x).trans (contains_written he)
  content x j := by
    rw [h.content, content_written, content_written]
    by_cases hx : x = e
    · by_cases hj : j = id
      · simp [hx, hj, hid, hu]
      · simp [hx, hj, Ne.symm hj]
    · simp [hx, Ne.symm hx]
  count := by
    rw [h.count, List.countP_cons, hu]
    cases changed <;> simp [Nat.add_comm]

end Updated

end Store

namespace StyleM

open Store

variable {a : Activity} {e : NodeId} {name : String} {id : PropertyId} {ids : List PropertyId}
  {p : PropertyDefinition} {slot : PropertySlot} {changed : Bool}

theorem ensures_countChange
    (change : PropertyDefinition → PropertySlot → Except ValueError (Bool × PropertySlot))
    (hid : a.store.registry.id? name = some id)
    (he : a.store.contains e = true) (hp : a.store.registry.get? id = some p)
    (hc : change p (a.store.slotAt e id) = .ok (changed, slot)) :
    Ensures (countChange (write e name change)) a
      (fun n b => n = (if changed then 1 else 0) ∧
        b.store = a.store.written e id slot changed)
      (fun _ _ => False) := by
  refine ensures_bind (ensures_write ?_ ?_ ?_)
  · intro id' p' slot' changed' hid' _ hp' hc'
    obtain rfl := Option.some.inj (hid.symm.trans hid')
    obtain rfl := Option.some.inj (hp.symm.trans hp')
    obtain ⟨rfl, rfl⟩ := Prod.mk.inj (Except.ok.inj (hc.symm.trans hc'))
    exact ensures_pure ⟨rfl, rfl⟩
  · intro id' p' error hid' _ hp' hc'
    obtain rfl := Option.some.inj (hid.symm.trans hid')
    obtain rfl := Option.some.inj (hp.symm.trans hp')
    simp [hc] at hc'
  · rintro (hn | hn | ⟨id', hid', hn⟩)
    · simp [hid] at hn
    · simp [he] at hn
    · obtain rfl := Option.some.inj (hid.symm.trans hid')
      simp [hp] at hn

def resetting (s : Store) (e : NodeId) (id : PropertyId) : Option (Bool × Content) :=
  (s.registry.get? id).map fun _ => (!(s.assigned e id).isUnset, (.unset, none))

theorem ensures_resetAll {s : Store} (hn : ids.Nodup) (he : a.store.contains e = true)
    (hr : a.store.registry = s.registry)
    (hs : ∀ id ∈ ids, a.store.content e id = s.content e id) :
    Ensures (resetAll e ids) a
      (fun n b => a.store.Updated b.store e (resetting s e) ids n) (fun _ _ => False) := by
  induction ids generalizing a with
  | nil => exact ensures_pure .nil
  | cons id ids ih =>
      obtain ⟨hid, hn⟩ := List.nodup_cons.mp hn
      rw [resetAll]
      refine ensures_bind (ensures_store ?_)
      cases hp : a.store.registry.get? id with
      | none =>
          refine (ih hn he hr fun j hj => hs j (List.mem_cons_of_mem _ hj)).mono ?_ fun _ _ h => h
          exact fun n b h => h.skip (by simp [resetting, ← hr, hp])
      | some p =>
          obtain ⟨slot, hslot, hcontent⟩ := (a.store.slotAt e id).reset_content
          have step := ensures_countChange (fun _ slot => .ok slot.reset)
            (PropertyRegistry.id?_name hp) he hp (congrArg Except.ok hslot)
          refine ensures_bind (step.mono ?_ fun _ _ h => h)
          rintro n b ⟨rfl, hb⟩
          refine ensures_bind ((ih (a := b) hn (by simpa [hb, contains_written he] using he)
            (by simpa [hb] using hr) fun j hj => ?_).mono ?_ fun _ _ h => h)
          · have hj' : id ≠ j := fun h => hid (h ▸ hj)
            rw [hb, content_written, if_neg (by simp [hj'])]
            exact hs j (List.mem_cons_of_mem _ hj)
          · intro m c hc
            refine ensures_pure ((hb ▸ hc).write he ?_ hid)
            have hassigned : s.assigned e id = (a.store.slotAt e id).assigned :=
              congrArg Prod.fst (hs id List.mem_cons_self).symm
            simp [resetting, ← hr, hp, hassigned, hcontent]

def overwriting (s : Store) (e : NodeId) (winner : PropertyId → Option Candidate)
    (id : PropertyId) : Option (Bool × Content) :=
  (winner id).map fun c => (!(s.assigned e id == c.declaration.value),
    if s.assigned e id == c.declaration.value then s.content e id
    else (c.declaration.value, some c.matched.provenance))

theorem ensures_overwriteAll {s : Store} {winner : PropertyId → Option Candidate}
    (hw : ∀ id c, winner id = some c → c.property? s.registry = some id) (hn : ids.Nodup)
    (he : a.store.contains e = true) (hr : a.store.registry = s.registry)
    (hs : ∀ id ∈ ids, (winner id).isSome → a.store.content e id = s.content e id) :
    Ensures (overwriteAll e (ids.filterMap winner)) a
      (fun n b => a.store.Updated b.store e (overwriting s e winner) ids n)
      (fun _ _ => False) := by
  induction ids generalizing a with
  | nil => exact ensures_pure .nil
  | cons id ids ih =>
      obtain ⟨hid, hn⟩ := List.nodup_cons.mp hn
      cases hc : winner id with
      | none =>
          rw [List.filterMap_cons_none hc]
          refine (ih hn he hr fun j hj => hs j (List.mem_cons_of_mem _ hj)).mono ?_ fun _ _ h => h
          exact fun n b h => h.skip (by simp [overwriting, hc])
      | some c =>
          rw [List.filterMap_cons_some hc, overwriteAll]
          obtain ⟨hname, p, hp, hcheck⟩ := Candidate.property?_eq_some.mp (hw id c hc)
          obtain ⟨slot, hslot, hcontent⟩ := (a.store.slotAt e id).overwrite_content hcheck
            (some c.matched.provenance)
          have step := ensures_countChange (fun p slot => slot.overwrite p c.source)
            (hr ▸ hname) he (hr ▸ hp) hslot
          refine ensures_bind (step.mono ?_ fun _ _ h => h)
          rintro n b ⟨rfl, hb⟩
          refine ensures_bind ((ih (a := b) hn (by simpa [hb, contains_written he] using he)
            (by simpa [hb] using hr) fun j hj hj' => ?_).mono ?_ fun _ _ h => h)
          · have hne : id ≠ j := fun h => hid (h ▸ hj)
            rw [hb, content_written, if_neg (by simp [hne])]
            exact hs j (List.mem_cons_of_mem _ hj) hj'
          · intro m d hd
            refine ensures_pure ((hb ▸ hd).write he ?_ hid)
            have hsame := hs id List.mem_cons_self (by simp [hc])
            have hassigned : s.assigned e id = (a.store.slotAt e id).assigned :=
              congrArg Prod.fst hsame.symm
            simp only [overwriting, hc, Option.map_some, hassigned, hcontent, ← hsame]
            rfl

theorem mem_ruled {s : Store} : id ∈ ruled s e ↔
    (s.slotAt e id).provenance.any (·.selector.isSome) = true := by
  simp only [ruled, slots, slotAt, slot?, List.mem_map, List.mem_filter, Prod.exists,
    exists_and_right, exists_eq_right]
  rcases Option.eq_none_or_eq_some (s.element? e) with hs | ⟨element, hs⟩
  · simp [hs, PropertySlot.empty]
  · simp only [hs, Option.bind_some, StyledElement.slot?,
      Std.ExtTreeMap.mem_toList_iff_getElem?_eq_some]
    cases element.slots[id]? <;> simp [PropertySlot.empty]

theorem nodup_ruled {s : Store} : (ruled s e).Nodup := by
  unfold ruled slots
  cases s.element? e with
  | none => simp
  | some element =>
      refine (List.Sublist.map Prod.fst List.filter_sublist).nodup ?_
      rw [Std.ExtTreeMap.map_fst_toList_eq_keys]
      exact Std.ExtTreeMap.nodup_keys

/-- All properties with a value from somewhere are known in a store that is `Known`. -/
structure Stale (s : Store) (e : NodeId) (matched : List MatchedRule) (id : PropertyId) :
    Prop where
  known : (s.registry.get? id).isSome = true
  ruled : (s.slotAt e id).provenance.any (·.selector.isSome) = true
  uncontested (p : Place) : ¬p.Contends s.registry matched id

structure Applied (s s' : Store) (e : NodeId) (matched : List MatchedRule) (n : Nat) : Prop where
  decided {id : PropertyId} {p : Place} : p.Contends s.registry matched id →
    ∃ p : Place, p.Wins s.registry matched id
  won {id : PropertyId} {p : Place} : p.Wins s.registry matched id →
    s'.assigned e id = p.declaration.value ∨ (s'.assigned e id == p.declaration.value) = true
  reset {id : PropertyId} : Stale s e matched id →
    s'.assigned e id = .unset ∧ (s'.slotAt e id).provenance = none
  kept {x : NodeId} {id : PropertyId} :
    ¬(x = e ∧ ((∃ p : Place, p.Contends s.registry matched id) ∨ Stale s e matched id)) →
    s'.assigned x id = s.assigned x id ∧
      (s'.slotAt x id).provenance = (s.slotAt x id).provenance
  count : n = Set.ncard {id | (∃ p : Place, p.Wins s.registry matched id ∧
      (s.assigned e id == p.declaration.value) = false) ∨
    Stale s e matched id ∧ (s.assigned e id == .unset) = false}

section

variable {s t s' : Store} {matched : List MatchedRule} {winner : PropertyId → Option Candidate}
  {m n : Nat}

def Decides (r : PropertyRegistry) (matched : List MatchedRule)
    (winner : PropertyId → Option Candidate) : Prop :=
  ∀ id, (winner id = none ∧ ∀ p : Place, ¬p.Contends r matched id) ∨
    ∃ p : Place, winner id = some p.candidate ∧ p.Wins r matched id

theorem Decides.eq_none (h : Decides s.registry matched winner)
    (hn : ∀ p : Place, ¬p.Contends s.registry matched id) : winner id = none := by
  rcases h id with ⟨hw, _⟩ | ⟨p, _, hp⟩
  · exact hw
  · exact absurd hp.toContends (hn p)

theorem Decides.uncontested (h : Decides s.registry matched winner) (hw : winner id = none)
    (p : Place) : ¬p.Contends s.registry matched id := by
  rcases h id with ⟨_, hn⟩ | ⟨q, hq, _⟩
  · exact hn p
  · simp [hw] at hq

theorem Decides.eq_some (h : Decides s.registry matched winner)
    (hm : (matched.map (·.order)).Nodup) {p : Place} (hp : p.Wins s.registry matched id) :
    winner id = some p.candidate := by
  rcases h id with ⟨_, hn⟩ | ⟨q, hq, hwins⟩
  · exact absurd hp.toContends (hn p)
  · rw [hq, hwins.unique hm hp]

theorem mem_stale (h : Decides s.registry matched winner) :
    id ∈ (ruled s e).filter (fun id => (winner id).isNone) ∧
      (s.registry.get? id).isSome = true ↔ Stale s e matched id := by
  rw [List.mem_filter, mem_ruled, Option.isNone_iff_eq_none]
  exact ⟨fun ⟨⟨hr, hw⟩, hk⟩ => ⟨hk, hr, h.uncontested hw⟩,
    fun hs => ⟨⟨hs.ruled, h.eq_none hs.uncontested⟩, hs.known⟩⟩

theorem content_won (h : Decides s.registry matched winner)
    (hm : (matched.map (·.order)).Nodup)
    (hw : t.Updated s' e (overwriting s e winner) (List.range s.registry.size) m) {p : Place}
    (hp : p.Wins s.registry matched id) : s'.content e id =
      if s.assigned e id == p.declaration.value then s.content e id
      else (p.declaration.value, some p.matched.provenance) := by
  obtain ⟨d, hd, _⟩ := hp.accepted
  have hid : id ∈ List.range s.registry.size := List.mem_range.mpr (PropertyRegistry.lt_size hd)
  rw [hw.content, if_pos ⟨rfl, hid⟩, overwriting, h.eq_some hm hp]
  rfl

theorem content_lost (h : Decides s.registry matched winner)
    (hw : t.Updated s' e (overwriting s e winner) (List.range s.registry.size) m) {x : NodeId}
    (hn : x = e → ∀ p : Place, ¬p.Contends s.registry matched id) :
    s'.content x id = t.content x id := by
  rw [hw.content]
  split
  · rename_i hx
    rw [overwriting, h.eq_none (hn hx.1), hx.1]
    rfl
  · rfl

theorem content_reset (h : Decides s.registry matched winner)
    (hr : s.Updated t e (resetting s e) ((ruled s e).filter fun id => (winner id).isNone) n)
    (hs : Stale s e matched id) : t.content e id = (.unset, none) := by
  obtain ⟨p, hp⟩ := Option.isSome_iff_exists.mp hs.known
  rw [hr.content, if_pos ⟨rfl, ((mem_stale h).mpr hs).1⟩, resetting, hp]
  rfl

theorem content_kept (h : Decides s.registry matched winner)
    (hr : s.Updated t e (resetting s e) ((ruled s e).filter fun id => (winner id).isNone) n)
    {x : NodeId} (hn : x = e → ¬Stale s e matched id) : t.content x id = s.content x id := by
  rw [hr.content]
  split
  · rename_i hx
    obtain ⟨rfl, hmem⟩ := hx
    cases hp : s.registry.get? id with
    | none => simp [resetting, hp]
    | some p => exact absurd ((mem_stale h).mp ⟨hmem, by simp [hp]⟩) (hn rfl)
  · rfl

theorem countP_add_countP {α : Type} {l l' : List α} {f g : α → Bool} (hl : l.Nodup)
    (hl' : l'.Nodup) (hd : ∀ x, ¬(x ∈ l ∧ f x = true ∧ x ∈ l' ∧ g x = true)) :
    l.countP f + l'.countP g =
      Set.ncard {x | (x ∈ l' ∧ g x = true) ∨ x ∈ l ∧ f x = true} := by
  classical
  have hnodup : (l'.filter g ++ l.filter f).Nodup := by
    refine List.nodup_append.mpr ⟨hl'.filter g, hl.filter f, ?_⟩
    rintro x hx _ hy rfl
    rw [List.mem_filter] at hx hy
    exact hd x ⟨hy.1, hy.2, hx.1, hx.2⟩
  have hset : {x | (x ∈ l' ∧ g x = true) ∨ x ∈ l ∧ f x = true} =
      ↑(l'.filter g ++ l.filter f).toFinset := by
    ext x
    simp
  rw [hset, Set.ncard_coe_finset, List.toFinset_card_of_nodup hnodup, List.length_append,
    List.countP_eq_length_filter, List.countP_eq_length_filter, Nat.add_comm]

theorem count_updated (h : Decides s.registry matched winner)
    (hm : (matched.map (·.order)).Nodup)
    (hr : s.Updated t e (resetting s e) ((ruled s e).filter fun id => (winner id).isNone) n)
    (hw : t.Updated s' e (overwriting s e winner) (List.range s.registry.size) m) :
    n + m = Set.ncard {id | (∃ p : Place, p.Wins s.registry matched id ∧
        (s.assigned e id == p.declaration.value) = false) ∨
      Stale s e matched id ∧ (s.assigned e id == .unset) = false} := by
  have written (id : PropertyId) : id ∈ List.range s.registry.size ∧
      (overwriting s e winner id).any Prod.fst = true ↔
      ∃ p : Place, p.Wins s.registry matched id ∧
        (s.assigned e id == p.declaration.value) = false := by
    constructor
    · rintro ⟨_, hany⟩
      rcases h id with ⟨hn, _⟩ | ⟨p, hp, hwins⟩
      · simp [overwriting, hn] at hany
      · exact ⟨p, hwins, by simpa [overwriting, hp, Place.candidate] using hany⟩
    · rintro ⟨p, hp, hne⟩
      obtain ⟨d, hd, _⟩ := hp.accepted
      refine ⟨List.mem_range.mpr (PropertyRegistry.lt_size hd), ?_⟩
      rw [overwriting, h.eq_some hm hp]
      simpa [Place.candidate] using hne
  have cleared (id : PropertyId) : id ∈ (ruled s e).filter (fun id => (winner id).isNone) ∧
      (resetting s e id).any Prod.fst = true ↔
      Stale s e matched id ∧ (s.assigned e id == .unset) = false := by
    rw [← mem_stale h, Value.beq_unset, and_assoc]
    cases hp : s.registry.get? id <;> simp [resetting, hp]
  rw [hr.count, hw.count, countP_add_countP (nodup_ruled.filter _) List.nodup_range]
  · simp only [written, cleared]
  · rintro id ⟨hmem, _, hwon⟩
    obtain ⟨p, hp, _⟩ := (written id).mp hwon
    have hnone := (List.mem_filter.mp hmem).2
    simp [h.eq_some hm hp] at hnone

theorem Applied.of_updated (h : Decides s.registry matched winner)
    (hm : (matched.map (·.order)).Nodup)
    (hr : s.Updated t e (resetting s e) ((ruled s e).filter fun id => (winner id).isNone) n)
    (hw : t.Updated s' e (overwriting s e winner) (List.range s.registry.size) m) :
    Applied s s' e matched (n + m) where
  decided {id p} hp := by
    rcases h id with ⟨_, hn⟩ | ⟨q, _, hwins⟩
    · exact absurd hp (hn p)
    · exact ⟨q, hwins⟩
  won {id p} hp := by
    have hcontent := content_won h hm hw hp
    split at hcontent
    · rename_i heq
      right
      have hassigned : s'.assigned e id = s.assigned e id := congrArg Prod.fst hcontent
      rwa [hassigned]
    · exact .inl (congrArg Prod.fst hcontent)
  reset {id} hs := by
    have hcontent := (content_lost h hw fun _ => hs.uncontested).trans (content_reset h hr hs)
    exact ⟨congrArg Prod.fst hcontent, congrArg Prod.snd hcontent⟩
  kept {x id} hn := by
    have hcontent : s'.content x id = s.content x id :=
      (content_lost h hw fun hx p hp => hn ⟨hx, .inl ⟨p, hp⟩⟩).trans
        (content_kept h hr fun hx hs => hn ⟨hx, .inr hs⟩)
    exact ⟨congrArg Prod.fst hcontent, congrArg Prod.snd hcontent⟩
  count := count_updated h hm hr hw

end

theorem applyMatched_spec {matched : List MatchedRule} (he : a.store.contains e = true)
    (h : (matched.map (·.order)).Nodup) :
    ∃ n b, applyMatched e matched a = .ok n b ∧ Applied a.store b.store e matched n := by
  refine Ensures.exists_ok ?_
  rw [applyMatched]
  refine ensures_bind (ensures_store ?_)
  have decides : Decides a.store.registry matched (Candidate.winner?
      (Candidate.eligible a.store.registry (Candidate.ofMatched matched))) :=
    Place.winner?_spec h
  generalize Candidate.winner? (Candidate.eligible a.store.registry
    (Candidate.ofMatched matched)) = winner at decides ⊢
  have accepted (id : PropertyId) (c : Candidate) (hc : winner id = some c) :
      c.property? a.store.registry = some id := by
    rcases decides id with ⟨hn, _⟩ | ⟨p, hp, hwins⟩
    · simp [hn] at hc
    · obtain rfl := Option.some.inj (hp.symm.trans hc)
      exact Candidate.property?_eq_some.mpr ⟨hwins.named, hwins.accepted⟩
  have nodup : ((ruled a.store e).filter fun id => (winner id).isNone).Nodup :=
    nodup_ruled.filter _
  refine ensures_bind ((ensures_resetAll nodup he rfl fun _ _ => rfl).mono ?_ fun _ _ h => h)
  intro n b hb
  have same (id : PropertyId) (hid : id ∈ List.range a.store.registry.size)
      (hsome : (winner id).isSome) : b.store.content e id = a.store.content e id := by
    have hmem : id ∉ (ruled a.store e).filter fun id => (winner id).isNone := by
      intro hmem
      have hnone := (List.mem_filter.mp hmem).2
      rw [Option.isNone_iff_eq_none] at hnone
      simp [hnone] at hsome
    rw [hb.content, if_neg fun h => hmem h.2]
  refine ensures_bind ((ensures_overwriteAll accepted List.nodup_range
    ((hb.contains e).trans he) hb.registry same).mono ?_ fun _ _ h => h)
  exact fun m c hc => ensures_pure (Applied.of_updated decides h hb hc)

def coloring (origin : Origin) (order : Nat) (declarations : List Declaration) : MatchedRule :=
  ⟨⟨⟨[]⟩, declarations, origin, 0⟩, ⟨[], ⟨[.universal .any]⟩, .zero⟩, .zero, order⟩

def sheet : MatchedRule :=
  coloring .userAgent 0 [⟨"color", .keyword "white", true⟩, ⟨"Color", .keyword "red", true⟩,
    ⟨"color", .auto, true⟩]

def contested : List MatchedRule :=
  [coloring .inline 5 [⟨"color", .keyword "black", false⟩],
    coloring .author 4 [⟨"color", .keyword "blue", true⟩], sheet,
    coloring .user 2 [⟨"color", .keyword "green", true⟩],
    coloring .inline 3 [⟨"color", .keyword "gold", true⟩]]

def uncolored : Activity :=
  StyleOperation.run StyleOperation.ink [.insert ⟨0, 1⟩ none]

theorem applyMatched_contested :
    uncolored.store.contains ⟨0, 1⟩ = true ∧ (contested.map (·.order)).Nodup ∧
      ∃ b, applyMatched ⟨0, 1⟩ contested uncolored = .ok 1 b ∧
        Applied uncolored.store b.store ⟨0, 1⟩ contested 1 ∧
        Place.Wins uncolored.store.registry contested 0
          ⟨sheet, 1, ⟨"Color", .keyword "red", true⟩⟩ ∧
        b.store.assigned ⟨0, 1⟩ 0 = .keyword "red" := by
  have known : uncolored.store.contains ⟨0, 1⟩ = true := by cbv
  have distinct : (contested.map (·.order)).Nodup := by decide
  have answer : answer? (applyMatched ⟨0, 1⟩ contested uncolored) = some 1 := by cbv
  have value : (after (applyMatched ⟨0, 1⟩ contested) uncolored).store.assigned ⟨0, 1⟩ 0 =
      .keyword "red" := by cbv
  have chosen : Candidate.winner? (Candidate.eligible uncolored.store.registry
      (Candidate.ofMatched contested)) 0 = some ⟨⟨"Color", .keyword "red", true⟩, sheet⟩ := by cbv
  obtain ⟨n, b, hb, happlied⟩ := applyMatched_spec known distinct
  obtain rfl : n = 1 := by
    rw [hb] at answer
    exact Option.some.inj answer
  rw [after, hb] at value
  refine ⟨known, distinct, b, hb, happlied, ?_, value⟩
  rcases Place.winner?_spec (r := uncolored.store.registry) distinct 0 with
    ⟨hnone, -⟩ | ⟨⟨matched, position, declaration⟩, hsome, wins⟩
  · rw [chosen] at hnone
    cases hnone
  · obtain ⟨rfl, rfl⟩ := Candidate.mk.inj (Option.some.inj (chosen.symm.trans hsome))
    have second : position = 1 := by
      have declared := wins.declared
      rcases position with _ | _ | _ | n
      · simp [sheet, coloring] at declared
      · rfl
      · simp [sheet, coloring] at declared
      · simp [sheet, coloring] at declared
    exact second ▸ wins

end StyleM

end CssStyling
