import CssStyling.Proofs.Lineage
import CssStyling.Proofs.Store.Slots
import Mathlib.Algebra.BigOperators.Group.Finset.Basic
import Mathlib.Algebra.Order.BigOperators.Group.Finset
import Mathlib.Data.Finset.Card
import Mathlib.Logic.Relation

namespace CssStyling.Store

variable {s s' s'' : Store} {e d x : NodeId} {id j : PropertyId}

structure Listed (s : Store) : Prop where
  nodup (e : NodeId) (id : PropertyId) : (s.slotAt e id).dependents.Nodup
  parent {e d : NodeId} {id : PropertyId} :
    d ∈ (s.slotAt e id).dependents → s.parent? d = some e

structure Linked (s : Store) : Prop extends Listed s where
  contains_parent {e p : NodeId} : s.parent? e = some p → s.contains p = true
  rooted : Rooted s.parent?

theorem ofRegistry_linked (r : PropertyRegistry) : (ofRegistry r).Linked where
  nodup e id := by simp [slotAt_ofRegistry, PropertySlot.empty]
  parent hd := by simp [slotAt_ofRegistry, PropertySlot.empty] at hd
  contains_parent hp := by simp [parent?_ofRegistry] at hp
  rooted e := ⟨[e], .root (parent?_ofRegistry)⟩

theorem Linked.modifySlot {f : PropertySlot → PropertySlot} (h : s.Linked)
    (he : s.contains e = true)
    (nodup : (f (s.slotAt e id)).dependents.Nodup)
    (parent : ∀ d ∈ (f (s.slotAt e id)).dependents, s.parent? d = some e) :
    (s.modifySlot e id f).Linked where
  nodup x j := by
    rw [slotAt, slot?_modifySlot]
    split
    · exact nodup
    · exact h.nodup x j
  parent {x d j} hd := by
    rw [slotAt, slot?_modifySlot] at hd
    rw [parent?_modifySlot]
    split at hd
    · rename_i hx
      exact hx.1 ▸ parent d hd
    · exact h.parent hd
  contains_parent hp := by
    rw [parent?_modifySlot] at hp
    rw [contains_modifySlot he]
    exact h.contains_parent hp
  rooted := h.rooted.congr fun _ => parent?_modifySlot

theorem Linked.lineage_length_le {l : List NodeId} (h : s.Linked) (hl : Lineage s.parent? e l) :
    l.length ≤ s.size + 1 := by
  have known {x : NodeId} (hx : s.contains x = true) : x ∈ s.elements.keys :=
    Std.ExtTreeMap.mem_keys.mpr (contains_iff.mp hx)
  cases hl with
  | root => simp
  | step hp ht =>
      have hsub := ht.mem_of_closed (P := fun x => x ∈ s.elements.keys)
        (known (h.contains_parent hp)) fun x y hy => known (h.contains_parent hy)
      have hlen := ht.length_le_of_subset hsub
      rw [Std.ExtTreeMap.length_keys] at hlen
      exact Nat.succ_le_succ hlen

def Feeds (s : Store) (id : PropertyId) (e d : NodeId) : Prop :=
  d ∈ (s.slotAt e id).dependents

def Below (s : Store) (id : PropertyId) : NodeId → NodeId → Prop :=
  Relation.ReflTransGen (s.Feeds id)

theorem Below.mono (h : ∀ e d, s.Feeds id e d → s'.Feeds id e d) (hx : s.Below id e x) :
    s'.Below id e x :=
  Relation.ReflTransGen.mono h _ _ hx

theorem Below.eq_of_no_dependents (h : (s.slotAt e id).dependents = []) (hx : s.Below id e x) :
    x = e := by
  rcases Relation.ReflTransGen.cases_head hx with rfl | ⟨d, hd, _⟩
  · rfl
  · simp [Feeds, h] at hd

structure Drained (s s' : Store) (C : NodeId → PropertyId → Prop) : Prop where
  registry : s'.registry = s.registry
  contains (x : NodeId) : s'.contains x = s.contains x
  parent (x : NodeId) : s'.parent? x = s.parent? x
  drained {x : NodeId} {j : PropertyId} : C x j → s'.slotAt x j = (s.slotAt x j).drain
  kept {x : NodeId} {j : PropertyId} : ¬C x j → s'.slotAt x j = s.slotAt x j

namespace Drained

variable {C C' : NodeId → PropertyId → Prop}

theorem refl (s : Store) : Drained s s fun _ _ => False :=
  ⟨rfl, fun _ => rfl, fun _ => rfl, False.elim, fun _ => rfl⟩

theorem congr (h : Drained s s' C) (hC : ∀ x j, C' x j ↔ C x j) : Drained s s' C' :=
  ⟨h.registry, h.contains, h.parent, fun hc => h.drained ((hC _ _).mp hc),
    fun hc => h.kept fun hc' => hc ((hC _ _).mpr hc')⟩

theorem trans (h : Drained s s' C) (h' : Drained s' s'' C') :
    Drained s s'' fun x j => C x j ∨ C' x j where
  registry := h'.registry.trans h.registry
  contains x := (h'.contains x).trans (h.contains x)
  parent x := (h'.parent x).trans (h.parent x)
  drained {x j} hc := by
    by_cases h1 : C x j <;> by_cases h2 : C' x j
    · rw [h'.drained h2, h.drained h1, PropertySlot.drain_drain]
    · rw [h'.kept h2, h.drained h1]
    · rw [h'.drained h2, h.kept h1]
    · exact absurd hc (not_or.mpr ⟨h1, h2⟩)
  kept hc := by
    rw [not_or] at hc
    rw [h'.kept hc.2, h.kept hc.1]

theorem modifySlot (he : s.contains e = true) (id : PropertyId) :
    Drained s (s.modifySlot e id PropertySlot.drain) fun x j => e = x ∧ id = j where
  registry := rfl
  contains _ := contains_modifySlot he
  parent _ := parent?_modifySlot
  drained := by
    rintro x j ⟨rfl, rfl⟩
    exact slotAt_modifySlot_self
  kept := slotAt_modifySlot_of_ne

theorem slotAt_eq (h : Drained s s' C) (h' : Drained s s'' C) : s'.slotAt = s''.slotAt := by
  funext x j
  by_cases hc : C x j
  · rw [h.drained hc, h'.drained hc]
  · rw [h.kept hc, h'.kept hc]

theorem dependents_subset (h : Drained s s' C) (hd : d ∈ (s'.slotAt x j).dependents) :
    d ∈ (s.slotAt x j).dependents := by
  by_cases hc : C x j
  · simp [h.drained hc] at hd
  · rwa [h.kept hc] at hd

theorem assigned (h : Drained s s' C) : (s'.slotAt x j).assigned = (s.slotAt x j).assigned := by
  by_cases hc : C x j
  · rw [h.drained hc, PropertySlot.assigned_drain]
  · rw [h.kept hc]

theorem provenance (h : Drained s s' C) :
    (s'.slotAt x j).provenance = (s.slotAt x j).provenance := by
  by_cases hc : C x j
  · rw [h.drained hc, PropertySlot.provenance_drain]
  · rw [h.kept hc]

theorem listed (h : Drained s s' C) (hs : s.Listed) : s'.Listed where
  nodup e id := by
    by_cases hc : C e id
    · simp [h.drained hc]
    · exact h.kept hc ▸ hs.nodup e id
  parent hd := (h.parent _).trans (hs.parent (h.dependents_subset hd))

theorem linked (h : Drained s s' C) (hs : s.Linked) : s'.Linked where
  toListed := h.listed hs.toListed
  contains_parent hp := (h.contains _).trans (hs.contains_parent ((h.parent _).symm.trans hp))
  rooted := hs.rooted.congr h.parent

end Drained

def keySet (s : Store) : Finset NodeId :=
  s.elements.keys.toFinset

theorem mem_keySet : e ∈ s.keySet ↔ s.contains e = true := by
  rw [keySet, List.mem_toFinset, Std.ExtTreeMap.mem_keys, contains_iff]

theorem card_keySet_le (s : Store) : s.keySet.card ≤ s.size := by
  refine (List.toFinset_card_le _).trans ?_
  rw [Std.ExtTreeMap.length_keys]
  exact le_rfl

def edges (s : Store) (id : PropertyId) : Nat :=
  ∑ e ∈ s.keySet, (s.slotAt e id).dependents.length

theorem edges_le_size (h : s.Listed) (id : PropertyId) : s.edges id ≤ s.size := by
  have disjoint : (s.keySet : Set NodeId).PairwiseDisjoint fun e =>
      (s.slotAt e id).dependents.toFinset := by
    intro e _ e' _ hne
    refine Finset.disjoint_left.mpr fun d hd hd' => hne ?_
    have he := h.parent (List.mem_toFinset.mp hd)
    exact Option.some.inj (he.symm.trans (h.parent (List.mem_toFinset.mp hd')))
  have known : s.keySet.biUnion (fun e => (s.slotAt e id).dependents.toFinset) ⊆ s.keySet := by
    intro d hd
    obtain ⟨e, _, hd⟩ := Finset.mem_biUnion.mp hd
    exact mem_keySet.mpr (contains_of_parent? (h.parent (List.mem_toFinset.mp hd)))
  calc s.edges id
      = ∑ e ∈ s.keySet, (s.slotAt e id).dependents.toFinset.card :=
        Finset.sum_congr rfl fun e _ => (List.toFinset_card_of_nodup (h.nodup e id)).symm
    _ = (s.keySet.biUnion fun e => (s.slotAt e id).dependents.toFinset).card :=
        (Finset.card_biUnion disjoint).symm
    _ ≤ s.keySet.card := Finset.card_le_card known
    _ ≤ s.size := s.card_keySet_le

theorem edges_modifySlot_drain (h : s.contains e = true) (id : PropertyId) :
    (s.modifySlot e id PropertySlot.drain).edges id + (s.slotAt e id).dependents.length =
      s.edges id := by
  have keys : (s.modifySlot e id PropertySlot.drain).keySet = s.keySet := by
    ext x
    rw [mem_keySet, mem_keySet, contains_modifySlot h]
  have he : e ∈ s.keySet := mem_keySet.mpr h
  simp only [edges, keys]
  rw [← Finset.add_sum_erase _ _ he, ← Finset.add_sum_erase _ _ he]
  have others : ∀ x ∈ s.keySet.erase e,
      ((s.modifySlot e id PropertySlot.drain).slotAt x id).dependents.length =
        (s.slotAt x id).dependents.length := by
    intro x hx
    rw [slotAt_modifySlot_of_ne]
    exact fun hex => (Finset.mem_erase.mp hx).1 hex.1.symm
  rw [Finset.sum_congr rfl others, slotAt_modifySlot_self]
  simp only [PropertySlot.dependents_drain, List.length_nil]
  omega

theorem below_modifySlot_drain {w : NodeId} (h : s.Below id w x) :
    (∃ d ∈ (s.slotAt e id).dependents, (s.modifySlot e id PropertySlot.drain).Below id d x) ∨
      x = e ∨ (s.modifySlot e id PropertySlot.drain).Below id w x := by
  induction h with
  | refl => exact .inr (.inr .refl)
  | @tail y z _ hz ih =>
      by_cases hy : y = e
      · subst y
        exact .inl ⟨z, hz, .refl⟩
      · have hz' : (s.modifySlot e id PropertySlot.drain).Feeds id y z := by
          unfold Feeds
          rwa [slotAt_modifySlot_of_ne fun h => hy h.1.symm]
        rcases ih with ⟨d, hd, hb⟩ | rfl | hb
        · exact .inl ⟨d, hd, hb.tail hz'⟩
        · exact absurd rfl hy
        · exact .inr (.inr (hb.tail hz'))

/-- One turn of forgetting: some element comes off the list of those that are still to be visited,
and its dependents come on. -/
inductive Turn (id : PropertyId) : Store × List NodeId → Store × List NodeId → Prop where
  | skip {s : Store} {work rest : List NodeId} {e : NodeId} :
      work.Perm (e :: rest) → s.slot? e id = none → Turn id (s, work) (s, rest)
  | drain {s : Store} {work rest : List NodeId} {e : NodeId} {slot : PropertySlot} :
      work.Perm (e :: rest) → s.slot? e id = some slot →
      Turn id (s, work) (s.modifySlot e id PropertySlot.drain, slot.dependents ++ rest)

variable {work rest : List NodeId} {c c' : Store × List NodeId}

theorem exists_turn (id : PropertyId) (s : Store) (hw : work ≠ []) :
    ∃ c, Turn id (s, work) c := by
  obtain ⟨e, rest, rfl⟩ := List.exists_cons_of_ne_nil hw
  cases hslot : s.slot? e id with
  | none => exact ⟨_, .skip (.refl _) hslot⟩
  | some slot => exact ⟨_, .drain (.refl _) hslot⟩

theorem Turn.room (h : Turn id c c') :
    c'.1.edges id + c'.2.length + 1 = c.1.edges id + c.2.length := by
  cases h with
  | skip hp _ =>
      have hlen := hp.length_eq
      simp only [List.length_cons] at hlen ⊢
      omega
  | @drain s work rest e slot hp hslot =>
      have hlen := hp.length_eq
      have hedges := edges_modifySlot_drain (contains_of_slot? hslot) id
      rw [slotAt_of_slot? hslot] at hedges
      simp only [List.length_cons, List.length_append] at hlen ⊢
      omega

theorem turns_end (id : PropertyId) (c : Store × List NodeId) :
    Acc (fun c' c => Turn id c c') c := by
  have smaller : Subrelation (fun c' c => Turn id c c')
      (InvImage (· < ·) fun c : Store × List NodeId => c.1.edges id + c.2.length) := by
    intro c' c h
    have room := h.room
    change c'.1.edges id + c'.2.length < c.1.edges id + c.2.length
    omega
  exact (smaller.wf (InvImage.wf _ Nat.lt_wfRel.wf)).apply c

theorem Turn.drained (h : Turn id c c')
    (hrest : Drained c'.1 s' fun x j => j = id ∧ ∃ w ∈ c'.2, c'.1.Below id w x) :
    Drained c.1 s' fun x j => j = id ∧ ∃ w ∈ c.2, c.1.Below id w x := by
  cases h with
  | @skip s work rest e hp hslot =>
      have hempty := slotAt_of_slot?_eq_none hslot
      -- the slot that is missing counts as drained already
      have only : ∀ x, s.Below id e x → x = e := fun x =>
        Below.eq_of_no_dependents (by rw [hempty]; rfl)
      refine ⟨hrest.registry, hrest.contains, hrest.parent, ?_, ?_⟩
      · rintro x j ⟨rfl, w, hw, hx⟩
        by_cases hr : ∃ w ∈ rest, s.Below j w x
        · exact hrest.drained ⟨rfl, hr⟩
        · rw [hrest.kept fun hc => hr hc.2]
          rcases List.mem_cons.mp (hp.mem_iff.mp hw) with rfl | hw
          · rw [only x hx, hempty]
            rfl
          · exact absurd ⟨w, hw, hx⟩ hr
      · intro x j hc
        exact hrest.kept fun ⟨hj, w, hw, hx⟩ =>
          hc ⟨hj, w, hp.mem_iff.mpr (List.mem_cons_of_mem _ hw), hx⟩
  | @drain s work rest e slot hp hslot =>
      have hslotAt := slotAt_of_slot? hslot
      have first := Drained.modifySlot (contains_of_slot? hslot) id
      refine (first.trans hrest).congr fun x j => ⟨?_, ?_⟩
      · rintro ⟨rfl, w, hw, hx⟩
        rcases below_modifySlot_drain (e := e) hx with ⟨d, hd, hb⟩ | rfl | hb
        · rw [hslotAt] at hd
          exact .inr ⟨rfl, d, List.mem_append_left _ hd, hb⟩
        · exact .inl ⟨rfl, rfl⟩
        · rcases List.mem_cons.mp (hp.mem_iff.mp hw) with rfl | hw
          · refine .inl ⟨(hb.eq_of_no_dependents ?_).symm, rfl⟩
            rw [slotAt_modifySlot_self]
            rfl
          · exact .inr ⟨rfl, w, List.mem_append_right _ hw, hb⟩
      · have top : e ∈ work := hp.mem_iff.mpr List.mem_cons_self
        rintro (⟨rfl, rfl⟩ | ⟨rfl, w, hw, hx⟩)
        · exact ⟨rfl, e, top, .refl⟩
        · have before : s.Below j w x := hx.mono fun _ _ => first.dependents_subset
          rcases List.mem_append.mp hw with hw | hw
          · exact ⟨rfl, e, top, .head (by rw [Feeds, hslotAt]; exact hw) before⟩
          · exact ⟨rfl, w, hp.mem_iff.mpr (List.mem_cons_of_mem _ hw), before⟩

theorem turns_drained (h : Relation.ReflTransGen (Turn id) c (s', [])) :
    Drained c.1 s' fun x j => j = id ∧ ∃ w ∈ c.2, c.1.Below id w x := by
  induction h using Relation.ReflTransGen.head_induction_on with
  | refl => exact (Drained.refl s').congr (by simp)
  | head hturn _ ih => exact hturn.drained ih

theorem forget_turns (visits : Nat) (work : List NodeId)
    (h : s.edges id + work.length ≤ visits) :
    Relation.ReflTransGen (Turn id) (s, work) (s.forget id visits work, []) := by
  induction visits generalizing s work with
  | zero =>
      obtain rfl : work = [] := List.length_eq_zero_iff.mp (by omega)
      exact .refl
  | succ visits ih =>
      cases work with
      | nil => exact .refl
      | cons e rest =>
          simp only [forget]
          cases hslot : s.slot? e id with
          | none =>
              have turn : Turn id (s, e :: rest) (s, rest) := .skip (.refl _) hslot
              exact .head turn (ih rest (Nat.le_of_succ_le_succ (turn.room.trans_le h)))
          | some slot =>
              have turn : Turn id (s, e :: rest)
                (s.modifySlot e id PropertySlot.drain, slot.dependents ++ rest) :=
                  .drain (.refl _) hslot
              exact .head turn (ih _ (Nat.le_of_succ_le_succ (turn.room.trans_le h)))

theorem invalidateProperty_turns (h : s.Listed) (e : NodeId) (id : PropertyId) :
    Relation.ReflTransGen (Turn id) (s, [e]) (s.invalidateProperty e id, []) :=
  forget_turns (s.size + 1) [e] (Nat.succ_le_succ (edges_le_size h id))

theorem invalidateProperty_drained (h : s.Listed) (e : NodeId) (id : PropertyId) :
    Drained s (s.invalidateProperty e id) fun x j => j = id ∧ s.Below id e x :=
  (turns_drained (invalidateProperty_turns h e id)).congr (by simp)

theorem foldl_invalidateProperty_drained (h : s.Listed) (e : NodeId) (ids : List PropertyId) :
    Drained s (ids.foldl (fun s id => s.invalidateProperty e id) s) fun x j =>
      j ∈ ids ∧ s.Below j e x := by
  induction ids generalizing s with
  | nil => exact (Drained.refl s).congr (by simp)
  | cons id ids ih =>
      have first := invalidateProperty_drained h e id
      refine (first.trans (ih (first.listed h))).congr ?_
      intro x j
      constructor
      · rintro ⟨hj, hx⟩
        by_cases hid : j = id
        · exact .inl ⟨hid, hid ▸ hx⟩
        · refine .inr ⟨(List.mem_cons.mp hj).resolve_left hid, hx.mono fun a d hd => ?_⟩
          unfold Feeds
          rwa [first.kept fun hc => hid hc.1]
      · rintro (⟨rfl, hx⟩ | ⟨hj, hx⟩)
        · exact ⟨List.mem_cons_self, hx⟩
        · exact ⟨List.mem_cons_of_mem _ hj, hx.mono fun a d => first.dependents_subset⟩

theorem invalidateElement_drained (h : s.Listed) (e : NodeId) :
    Drained s (s.invalidateElement e) fun x j => s.Below j e x := by
  have all := foldl_invalidateProperty_drained h e ((s.slots e).map Prod.fst)
  refine ⟨all.registry, all.contains, all.parent, ?_, fun hc => all.kept fun hc' => hc hc'.2⟩
  intro x j hx
  by_cases hj : j ∈ (s.slots e).map Prod.fst
  · exact all.drained ⟨hj, hx⟩
  · have hnone : s.slot? e j = none := by
      rcases Option.eq_none_or_eq_some (s.element? e) with he | ⟨element, he⟩
      · simp [slot?, he]
      · simpa [slots, he, slot?, StyledElement.slot?] using hj
    have hempty := slotAt_of_slot?_eq_none hnone
    rw [hx.eq_of_no_dependents (by rw [hempty]; rfl)]
    exact (all.kept fun hc => hj hc.1).trans (by rw [hempty]; rfl)

end CssStyling.Store
