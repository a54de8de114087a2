import CssStyling.Proofs.Cascade.Listening
import CssStyling.Proofs.Store.Refusing
import Mathlib

namespace CssStyling

namespace KindSet

variable {s t : KindSet} {k : ValueKind}

theorem contains_union : (s.union t).contains k = (s.contains k || t.contains k) := by
  rw [contains, union, BitVec.getLsbD_or]
  rfl

theorem contains_diff : (s.diff t).contains k = (s.contains k && !t.contains k) := by
  have small : k.index < 12 := by cases k <;> decide
  simp only [contains, diff, BitVec.getLsbD_and, BitVec.getLsbD_not, small, decide_true,
    Bool.true_and]

theorem contains_cssWide : cssWide.contains k = true ↔ k ∈ [.unset, .initial, .inherit] := by
  cases k <;> decide

end KindSet

namespace PropertyDefinition

variable {p : PropertyDefinition} {v : Value}

structure Accepts (p : PropertyDefinition) (v : Value) : Prop where
  kind : p.allowed.contains v.kind = true ∨ v.kind ∈ [.unset, .initial, .inherit]
  permitted : p.disallowed.contains v.kind = false
  listed (word : String) (words : List String) : v = .keyword word → p.keywords = some words →
    ∃ w ∈ words, Ascii.sameIgnoringCase w word = true

theorem effectiveKinds_contains {k : ValueKind} : p.effectiveKinds.contains k = true ↔
    (p.allowed.contains k = true ∨ k ∈ [.unset, .initial, .inherit]) ∧
      p.disallowed.contains k = false := by
  rw [effectiveKinds, KindSet.contains_diff, KindSet.contains_union, Bool.and_eq_true,
    Bool.or_eq_true, KindSet.contains_cssWide, Bool.not_eq_true']

theorem acceptsWord_iff {word : String} : p.acceptsWord word = true ↔
    ∀ words, p.keywords = some words → ∃ w ∈ words, Ascii.sameIgnoringCase w word = true := by
  unfold acceptsWord
  cases p.keywords with
  | none => simp
  | some words => simp

theorem check_eq_ok : p.check v = .ok () ↔ p.Accepts v := by
  have kinds : p.Accepts v ↔ p.effectiveKinds.contains v.kind = true ∧
      ∀ word, v = .keyword word → p.acceptsWord word = true := by
    simp only [effectiveKinds_contains, acceptsWord_iff]
    constructor
    · rintro ⟨kind, permitted, listed⟩
      exact ⟨⟨kind, permitted⟩, fun word hv words => listed word words hv⟩
    · rintro ⟨⟨kind, permitted⟩, listed⟩
      exact ⟨kind, permitted, fun word words hv => listed word hv words⟩
  rw [kinds]
  unfold check
  by_cases hk : p.effectiveKinds.contains v.kind = true
  · simp only [hk, if_true, true_and]
    cases v with
    | keyword word => by_cases hw : p.acceptsWord word = true <;> simp [hw]
    | _ => simp
  · simp [hk]

end PropertyDefinition

namespace PropertySlot

variable {slot slot' source : PropertySlot} {p : PropertyDefinition} {value : Value}
  {provenance : Option Provenance} {changed : Bool}

def Guarded
    (change : PropertyDefinition → PropertySlot → Except ValueError (Bool × PropertySlot)) :
    Prop :=
  ∀ p slot changed slot', change p slot = .ok (changed, slot') →
    slot'.assigned = slot.assigned ∨ slot'.assigned = .unset ∨ p.Accepts slot'.assigned

theorem assign_guarded (value : Value) (provenance : Option Provenance) :
    Guarded fun p slot => slot.assign p value provenance := by
  intro p slot changed slot' (h : slot.assign p value provenance = .ok (changed, slot'))
  unfold assign at h
  cases hcheck : p.check value with
  | error error => simp [hcheck] at h
  | ok =>
      simp only [hcheck] at h
      split at h
      · obtain ⟨rfl, rfl⟩ := Prod.mk.inj (Except.ok.inj h)
        exact .inl rfl
      · obtain ⟨rfl, rfl⟩ := Prod.mk.inj (Except.ok.inj h)
        exact .inr (.inr (PropertyDefinition.check_eq_ok.mp hcheck))

theorem cascade_guarded (source : PropertySlot) :
    Guarded fun p slot => slot.cascade p source := by
  intro p slot changed slot' (h : slot.cascade p source = .ok (changed, slot'))
  unfold cascade at h
  split at h
  · obtain ⟨rfl, rfl⟩ := Prod.mk.inj (Except.ok.inj h)
    exact .inl rfl
  · exact assign_guarded _ _ p slot changed slot' h

theorem overwrite_guarded (source : PropertySlot) :
    Guarded fun p slot => slot.overwrite p source := by
  intro p slot changed slot' (h : slot.overwrite p source = .ok (changed, slot'))
  unfold overwrite at h
  split at h
  · obtain ⟨rfl, rfl⟩ := Prod.mk.inj (Except.ok.inj h)
    exact .inl rfl
  · exact assign_guarded _ _ p slot changed slot' h

theorem reset_guarded : Guarded fun _ slot => .ok slot.reset := by
  intro p slot changed slot' h
  obtain ⟨cleared, hreset, hcontent⟩ := slot.reset_content
  obtain ⟨-, rfl⟩ := Prod.mk.inj (hreset.symm.trans (Except.ok.inj h))
  exact .inr (.inl (congrArg Prod.fst hcontent))

end PropertySlot

namespace Store

variable {s s' : Store} {e : NodeId} {id : PropertyId} {p : PropertyDefinition}
  {slot : PropertySlot} {changed : Bool}

def Checked (s : Store) : Prop :=
  ∀ x j, s.assigned x j = .unset ∨
    ∃ p, s.registry.get? j = some p ∧ p.Accepts (s.assigned x j)

theorem ofRegistry_checked (r : PropertyRegistry) : (ofRegistry r).Checked := by
  intro x j
  rw [assigned, slotAt_ofRegistry]
  exact .inl rfl

theorem Checked.congr (h : s.Checked) (hr : s'.registry = s.registry)
    (ha : ∀ x j, s'.assigned x j = s.assigned x j ∨ s'.assigned x j = .unset) : s'.Checked := by
  intro x j
  rcases ha x j with same | cleared
  · rw [same, hr]
    exact h x j
  · exact .inl cleared

theorem Checked.written (h : s.Checked) (hp : s.registry.get? id = some p)
    (hs : slot.assigned = s.assigned e id ∨ slot.assigned = .unset ∨ p.Accepts slot.assigned) :
    (s.written e id slot changed).Checked := by
  intro x j
  rw [Announces.assigned_written, registry_written]
  split
  · rename_i hx
    obtain ⟨rfl, rfl⟩ := hx
    rcases hs with same | cleared | accepted
    · rw [same]
      exact h e id
    · exact .inl cleared
    · exact .inr ⟨p, hp, accepted⟩
  · exact h x j

end Store

namespace StyleM

variable {a : Activity} {e : NodeId} {name : String}
  {change : PropertyDefinition → PropertySlot → Except ValueError (Bool × PropertySlot)}

theorem ensures_write_checked (hc : PropertySlot.Guarded change) (h : a.store.Checked) :
    Ensures (write e name change) a (fun _ b => b.store.Checked) fun _ b => b.store.Checked := by
  refine ensures_write ?_ ?_ fun _ _ => h
  · intro id p slot changed _ _ hp hchange
    exact h.written hp (hc p _ changed slot hchange)
  · intro id p error _ _ hp _
    have untouched : (a.store.written e id (a.store.slotAt e id) false).Checked :=
      h.written hp (.inl rfl)
    exact untouched

theorem tallies_checked : Tallies fun a _ b => a.store.Checked → b.store.Checked where
  refl _ h := h
  trans h h' ha := h' (h ha)

theorem countsWrites_checked (e : NodeId) :
    CountsWrites (fun a _ b => a.store.Checked → b.store.Checked) e where
  reset _ _ := Ensures.imp (ensures_write_checked PropertySlot.reset_guarded)
  overwrite _ _ source :=
    Ensures.imp (ensures_write_checked (PropertySlot.overwrite_guarded source))

theorem admits_checked (es : List NodeId) :
    Admits (fun a _ b => a.store.Checked → b.store.Checked) es := by
  intro a e _ parent s hs h
  have same (x : NodeId) (j : PropertyId) : s.assigned x j = a.store.assigned x j :=
    congrArg Prod.fst (Store.insert_content hs)
  exact h.congr (Announces.of_insert hs).registry fun x j => .inl (same x j)

end StyleM

namespace StyleAction

open StyleM

variable {a b : Activity} {action : StyleAction} {r : PropertyRegistry}

theorem Performs.unwritten (h : Performs a action b) (hw : action.writes = false) :
    b.store.registry = a.store.registry ∧ (b.store.assigned = a.store.assigned ∨
      (∃ e, action = .operate (.remove e)) ∧
        ∀ x id, b.store.assigned x id = a.store.assigned x id ∨ b.store.assigned x id = .unset) := by
  cases h with
  | announce _ _ hsilent hb =>
      rw [hsilent hw] at hb
      exact ⟨hb.registry, .inl hb.assigned⟩
  | remove hreg _ _ hassigned => exact ⟨hreg, .inr ⟨⟨_, rfl⟩, hassigned⟩⟩
  | subscribe => exact ⟨rfl, .inl rfl⟩
  | unsubscribe => exact ⟨rfl, .inl rfl⟩

theorem Performs.checked (h : Performs a action b) (hw : action.writes = false)
    (ha : a.store.Checked) : b.store.Checked := by
  obtain ⟨hr, same | ⟨-, cleared⟩⟩ := h.unwritten hw
  · exact ha.congr hr fun x j => .inl (congrFun₂ same x j)
  · exact ha.congr hr cleared

theorem perform_reads (a : Activity) {o : StyleOperation} (ho : o.reads = true) :
    (perform a (.operate o)).store.assigned = a.store.assigned := by
  have silent : (StyleAction.operate o).writes = false := StyleOperation.writes_of_reads ho
  obtain ⟨-, same | ⟨⟨e, hremove⟩, -⟩⟩ := (performs a (.operate o)).unwritten silent
  · exact same
  · cases hremove
    cases ho

theorem perform_checked (h : a.store.Checked) (action : StyleAction) :
    (perform a action).store.Checked := by
  have silent (hw : action.writes = false) : (perform a action).store.Checked :=
    (performs a action).checked hw h
  have writes {e : NodeId} {name : String}
      {change : PropertyDefinition → PropertySlot → Except ValueError (Bool × PropertySlot)}
      (hc : PropertySlot.Guarded change) (hp : action.program = discard (write e name change)) :
      (perform a action).store.Checked := by
    rw [perform, hp]
    exact after_of_ensures (P := fun b => b.store.Checked)
      (ensures_discard (ensures_write_checked hc h))
  have counted {x : StyleM Nat} (hx : Counts (fun a _ b => a.store.Checked → b.store.Checked) x)
      (hp : action.program = discard x) : (perform a action).store.Checked := by
    rw [perform, hp]
    exact after_of_ensures (P := fun b => b.store.Checked)
      (ensures_discard ((hx a).mono (fun _ _ hb => hb h) fun _ _ ⟨_, hb⟩ => hb h))
  cases action with
  | operate o =>
      cases o with
      | assign e name value provenance =>
          exact writes (PropertySlot.assign_guarded value provenance) rfl
      | cascade e name source => exact writes (PropertySlot.cascade_guarded source) rfl
      | overwrite e name source => exact writes (PropertySlot.overwrite_guarded source) rfl
      | reset e name => exact writes PropertySlot.reset_guarded rfl
      | insert | setParent | remove | invalidateElement | invalidateAll | read | readById =>
          exact silent rfl
  | applyMatched e matched =>
      exact counted (tallies_checked.applyMatched (countsWrites_checked e) matched) rfl
  | cascadeTree c d rules top =>
      exact counted (tallies_checked.cascadeTree countsWrites_checked (admits_checked _)) rfl
  | insertTree | subscribe | unsubscribe => exact silent rfl

theorem run_checked (r : PropertyRegistry) (as : List StyleAction) :
    (run r as).store.Checked := by
  induction as using List.reverseRecOn with
  | nil => exact Store.ofRegistry_checked r
  | append_singleton as action ih =>
      rw [run_concat]
      exact perform_checked ih action

theorem run_accepted (r : PropertyRegistry) (as : List StyleAction) :
    (∀ e id slot, (run r as).store.slot? e id = some slot → slot.assigned = .unset ∨
      ∃ p, r.get? id = some p ∧ p.check slot.assigned = .ok () ∧ p.Accepts slot.assigned) ∧
    ∀ o : StyleOperation, o.reads = true →
      (perform (run r as) (.operate o)).store.assigned = (run r as).store.assigned := by
  constructor
  · intro e id slot hslot
    have checked := run_checked r as e id
    rw [Store.assigned, Store.slotAt_of_slot? hslot, registry_run] at checked
    rcases checked with unset | ⟨p, hp, accepted⟩
    · exact .inl unset
    · exact .inr ⟨p, hp, PropertyDefinition.check_eq_ok.mpr accepted, accepted⟩
  · exact fun o => perform_reads _

example : (run StyleOperation.ink [.operate (.insert ⟨0, 1⟩ none),
    .operate (.cascade ⟨0, 1⟩ "color" (.ofValue (.integer 5) none)),
    .operate (.overwrite ⟨0, 1⟩ "color" (.ofValue (.integer 5) none))]).store.assigned ⟨0, 1⟩ 0 =
      .unset := by
  cbv

end StyleAction

end CssStyling
