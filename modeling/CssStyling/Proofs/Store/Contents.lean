import CssStyling.Proofs.Equality
import CssStyling.Proofs.Store.Moving
import CssStyling.Proofs.Store.Writing

namespace CssStyling

abbrev Content := Value × Option Provenance

namespace PropertySlot

variable {slot : PropertySlot} {p : PropertyDefinition} {value : Value}

def content (s : PropertySlot) : Content :=
  (s.assigned, s.provenance)

theorem overwrite_content (hp : p.check value = .ok ()) (provenance : Option Provenance) :
    ∃ slot', slot.overwrite p (ofValue value provenance) =
        .ok (!(slot.assigned == value), slot') ∧
      slot'.content = if slot.assigned == value then slot.content else (value, provenance) := by
  unfold overwrite
  by_cases h : (slot.assigned == value) = true
  · exact ⟨slot, by simp [ofValue, h], by simp [h]⟩
  · have hn : (value == slot.assigned) = false := by
      rw [Value.beq_comm]
      simpa using h
    refine ⟨{ slot with assigned := value, provenance }.invalidate, ?_, ?_⟩
    · simp [ofValue, h, assign, hp, hn]
    · simp [h, content, invalidate]

theorem reset_content : ∃ slot', slot.reset = (!slot.assigned.isUnset, slot') ∧
    slot'.content = (.unset, none) := by
  unfold reset
  by_cases h : slot.assigned.isUnset = true
  · refine ⟨{ slot with provenance := none }, by simp [h], ?_⟩
    cases hv : slot.assigned <;> simp [hv, Value.isUnset] at h
    simp [content]
  · exact ⟨_, by simp only [h]; rfl, rfl⟩

end PropertySlot

namespace Store

variable {s s' s'' : Store} {e x : NodeId} {id j : PropertyId} {slot : PropertySlot}
  {changed : Bool}

def content (s : Store) (e : NodeId) (id : PropertyId) : Content :=
  (s.slotAt e id).content

def subscriptions (s : Store) : List SubscriptionId × SubscriptionId :=
  (s.listeners, s.nextSubscription)

structure SameContents (s s' : Store) : Prop where
  registry : s'.registry = s.registry
  subscriptions : s'.subscriptions = s.subscriptions
  contains (x : NodeId) : s'.contains x = s.contains x
  content (x : NodeId) (j : PropertyId) : s'.content x j = s.content x j

namespace SameContents

theorem refl (s : Store) : SameContents s s :=
  ⟨rfl, rfl, fun _ => rfl, fun _ _ => rfl⟩

theorem trans (h : SameContents s s') (h' : SameContents s' s'') : SameContents s s'' where
  registry := h'.registry.trans h.registry
  subscriptions := h'.subscriptions.trans h.subscriptions
  contains x := (h'.contains x).trans (h.contains x)
  content x j := (h'.content x j).trans (h.content x j)

theorem foldl {α : Type} {f : Store → α → Store} (hf : ∀ s a, SameContents s (f s a))
    (as : List α) (s : Store) : SameContents s (as.foldl f s) := by
  induction as generalizing s with
  | nil => exact refl s
  | cons a as ih => exact (hf s a).trans (ih (f s a))

end SameContents

theorem modifySlot_drain_sameContents (he : s.contains e = true) :
    SameContents s (s.modifySlot e id PropertySlot.drain) := by
  have drained := Drained.modifySlot he id
  exact ⟨drained.registry, rfl, drained.contains, fun x j =>
    Prod.ext drained.assigned drained.provenance⟩

theorem forget_sameContents (visits : Nat) (work : List NodeId) :
    SameContents s (s.forget id visits work) := by
  induction visits generalizing s work with
  | zero => exact .refl s
  | succ visits ih =>
      cases work with
      | nil => exact .refl s
      | cons e rest =>
          simp only [forget]
          cases hslot : s.slot? e id with
          | none => exact ih rest
          | some slot =>
              exact (modifySlot_drain_sameContents (contains_of_slot? hslot)).trans
                (ih (slot.dependents ++ rest))

theorem invalidateElement_sameContents : SameContents s (s.invalidateElement e) :=
  .foldl (fun _ _ => forget_sameContents _ _) _ s

theorem invalidateAll_sameContents : SameContents s s.invalidateAll where
  registry := rfl
  subscriptions := rfl
  contains _ := contains_invalidateAll
  content x j := by rw [content, slotAt_invalidateAll]; rfl

theorem writeParent_sameContents {parent : Option NodeId} :
    SameContents s (s.writeParent e parent) where
  registry := rfl
  subscriptions := rfl
  contains _ := contains_writeParent
  content x j := by rw [content, slotAt_writeParent]; rfl

theorem detach_sameContents : SameContents s (s.detach e) where
  registry := registry_detach
  subscriptions := by
    unfold detach
    cases s.parent? e <;> rfl
  contains _ := contains_detach
  content x j := by
    unfold detach content
    cases s.parent? e with
    | none => rfl
    | some p =>
        simp only [slotAt_dropDependent]
        split <;> rfl

theorem setParent_sameContents {parent : Option NodeId} (h : s.setParent e parent = .ok s') :
    SameContents s s' := by
  obtain ⟨-, -, ⟨-, rfl⟩ | rfl⟩ := setParent_cases h
  · exact .refl _
  · exact (detach_sameContents.trans writeParent_sameContents).trans invalidateElement_sameContents

theorem insert_cases {parent : Option NodeId} (h : s.insert e parent = .ok s') :
    SameContents s s' ∨ s.contains e = false ∧ s' = s.add e parent := by
  unfold insert at h
  split at h
  · exact .inl (setParent_sameContents h)
  · rename_i he
    split at h
    · cases h
    · exact .inr ⟨by simpa using he, (Except.ok.inj h).symm⟩

theorem remove_cases (h : s.remove e = .ok s') :
    ∃ t, SameContents s t ∧ SameContents (t.erase e) s' := by
  unfold remove at h
  split at h
  · obtain rfl := Except.ok.inj h
    exact ⟨_, invalidateElement_sameContents.trans detach_sameContents, .foldl
      (fun _ _ => writeParent_sameContents.trans invalidateElement_sameContents) _ _⟩
  · cases h

@[simp] theorem registry_written : (s.written e id slot changed).registry = s.registry := by
  cases changed with
  | false => rfl
  | true => exact (forget_sameContents _ _).registry

theorem subscriptions_written : (s.written e id slot changed).subscriptions = s.subscriptions := by
  cases changed with
  | false => rfl
  | true => exact (forget_sameContents _ _).subscriptions

theorem contains_written (he : s.contains e = true) :
    (s.written e id slot changed).contains x = s.contains x := by
  cases changed with
  | false => exact contains_modifySlot he
  | true => exact ((forget_sameContents _ _).contains x).trans (contains_modifySlot he)

theorem content_written : (s.written e id slot changed).content x j =
      if e = x ∧ id = j then slot.content else s.content x j := by
  have written : (s.modifySlot e id fun _ => slot).content x j =
      if e = x ∧ id = j then slot.content else s.content x j := by
    rw [content, slotAt_modifySlot]
    split <;> rfl
  cases changed with
  | false => exact written
  | true => exact ((forget_sameContents _ _).content x j).trans written

def Known (s : Store) : Prop :=
  ∀ x j, (s.slotAt x j).provenance ≠ none → (s.registry.get? j).isSome = true

namespace Known

theorem congr (h : s.Known) (hr : s'.registry = s.registry)
    (hp : ∀ x j, (s'.slotAt x j).provenance ≠ none → (s.slotAt x j).provenance ≠ none) :
    s'.Known := by
  intro x j hx
  rw [hr]
  exact h x j (hp x j hx)

theorem sameContents (h : s.Known) (hs : SameContents s s') : s'.Known :=
  h.congr hs.registry fun x j hx => by
    have same : (s'.slotAt x j).provenance = (s.slotAt x j).provenance :=
      congrArg Prod.snd (hs.content x j)
    rwa [← same]

theorem insert {parent : Option NodeId} (h : s.Known) (hs : s.insert e parent = .ok s') :
    s'.Known := by
  rcases insert_cases hs with same | ⟨he, rfl⟩
  · exact h.sameContents same
  · refine h.congr rfl fun x j hx => ?_
    rwa [slotAt_add he] at hx

theorem remove (h : s.Known) (hs : s.remove e = .ok s') : s'.Known := by
  obtain ⟨t, ht, hs'⟩ := remove_cases hs
  have erased : (t.erase e).Known := by
    refine (h.sameContents ht).congr rfl fun x j hx => ?_
    rw [slotAt_erase] at hx
    split at hx
    · cases hx rfl
    · exact hx
  exact erased.sameContents hs'

theorem written (h : s.Known) (hid : (s.registry.get? id).isSome = true) :
    (s.written e id slot changed).Known := by
  intro x j hx
  rw [registry_written]
  by_cases hj : e = x ∧ id = j
  · exact hj.2 ▸ hid
  · have same : (s.written e id slot changed).content x j = s.content x j := by
      rw [content_written, if_neg hj]
    have provenance : ((s.written e id slot changed).slotAt x j).provenance =
        (s.slotAt x j).provenance := congrArg Prod.snd same
    exact h x j (provenance ▸ hx)

end Known

end Store

end CssStyling
