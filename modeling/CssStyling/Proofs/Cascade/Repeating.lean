import CssStyling.Proofs.Cascade.Placing
import Mathlib

namespace CssStyling

namespace Store

variable {s : Store} {e x : NodeId} {d : Document} {top : NodeId} {l : List NodeId}

theorem insert_self (hs : s.Linked) (he : s.contains e = true) :
    s.insert e (s.parent? e) = .ok s := by
  obtain ⟨element, helement⟩ := Option.isSome_iff_exists.mp he
  have hparent : s.parent? e = element.parent := by simp [parent?, helement]
  cases hp : s.parent? e with
  | none => simp [insert, he, setParent, helement, ← hparent, hp]
  | some p =>
      obtain ⟨l, hl⟩ := hs.rooted p
      have above : s.isInclusiveAncestor e p = false := by
        rw [← Bool.not_eq_true, isInclusiveAncestor_iff hs hl]
        exact (List.nodup_cons.mp (Lineage.step hp hl).nodup).1
      simp [insert, he, setParent, helement, hs.contains_parent hp, above, ← hparent, hp]

theorem insertAll_self (hs : s.Linked)
    (h : ∀ x ∈ l, d.isElement x = true →
      s.contains x = true ∧ s.parent? x = d.parentElement? x) :
    insertAll d l s = (.ok (), s) := by
  induction l with
  | nil => rfl
  | cons e l ih =>
      have rest := ih fun x hx => h x (List.mem_cons_of_mem _ hx)
      rw [insertAll]
      split
      · rename_i he
        obtain ⟨hc, hp⟩ := h e List.mem_cons_self he
        have known : s.knownParent? d e = s.parent? e := by
          unfold knownParent?
          rw [← hp]
          cases hq : s.parent? e with
          | none => rfl
          | some q => simp [hs.contains_parent hq]
        rw [known, insert_self hs hc]
        exact rest
      · exact rest

structure Upholds (s : Store) (e : NodeId) (winner : PropertyId → Option Candidate) : Prop where
  known : s.contains e = true
  won {id : PropertyId} {w : Candidate} : winner id = some w →
    ∃ slot, s.slot? e id = some slot ∧ (slot.assigned == w.declaration.value) = true
  lost {id : PropertyId} : winner id = none → id ∈ StyleM.ruled s e → s.registry.get? id = none

end Store

section

variable {known : Bool} {old : Content}

theorem verdict_won {w : Candidate} (hw : w.declaration.value.holdsNaN = false) :
    ((verdict known (some w) old).1 == w.declaration.value) = true := by
  unfold verdict
  dsimp only
  split
  · assumption
  · exact Value.beq_self hw

end

theorem Activity.written_self {a : Activity} {e : NodeId} {id : PropertyId}
    {p : PropertyDefinition} {slot : PropertySlot} (h : a.store.slot? e id = some slot) :
    a.written e id p slot false = a := by
  have same : a.store.written e id slot false = a.store := Store.modifySlot_eq_self h rfl
  simp [Activity.written, same]

namespace StyleM

open Store

variable {a : Activity} {e : NodeId} {id : PropertyId} {ids : List PropertyId}
  {es : List NodeId} {x y : StyleM Nat} {cs : List Candidate} {matched : List MatchedRule}
  {c : MatchingContext} {d : Document} {rules : List Rule} {top : NodeId}

def Idle (x : StyleM Nat) (a : Activity) : Prop :=
  Ensures x a (fun n b => n = 0 ∧ b = a) fun _ _ => False

theorem Idle.result_eq (h : Idle x a) : x a = .ok 0 a := by
  obtain ⟨n, b, hx, rfl, rfl⟩ := h.exists_ok
  exact hx

theorem idle_pure : Idle (pure 0) a :=
  ensures_pure ⟨rfl, rfl⟩

theorem Idle.add (hx : Idle x a) (hy : Idle y a) :
    Idle (x >>= fun n => y >>= fun m => pure (n + m)) a := by
  refine ensures_bind (hx.mono ?_ fun _ _ h => h)
  rintro _ _ ⟨rfl, rfl⟩
  refine ensures_bind (hy.mono ?_ fun _ _ h => h)
  rintro _ _ ⟨rfl, rfl⟩
  exact idle_pure

theorem idle_overwrite {w : Candidate} {slot : PropertySlot}
    (hw : w.property? a.store.registry = some id) (hslot : a.store.slot? e id = some slot)
    (heq : (slot.assigned == w.declaration.value) = true) :
    Idle (countChange (overwrite e w.declaration.property w.source)) a := by
  obtain ⟨hname, p, hp, -⟩ := Candidate.property?_eq_some.mp hw
  have kept (p : PropertyDefinition) : slot.overwrite p w.source = .ok (false, slot) := by
    have same : (slot.assigned == w.source.assigned) = true := heq
    simp [PropertySlot.overwrite, same]
  refine ensures_bind (ensures_write ?_ ?_ ?_)
  · intro id' p' slot' changed hid' _ _ hchange
    obtain rfl := Option.some.inj (hname.symm.trans hid')
    rw [slotAt_of_slot? hslot, kept] at hchange
    obtain ⟨rfl, rfl⟩ := Prod.mk.inj (Except.ok.inj hchange)
    exact ensures_pure ⟨rfl, Activity.written_self hslot⟩
  · intro id' p' error hid' _ _ hchange
    obtain rfl := Option.some.inj (hname.symm.trans hid')
    rw [slotAt_of_slot? hslot, kept] at hchange
    cases hchange
  · rintro (hn | hn | ⟨id', hid', hn⟩)
    · cases hname.symm.trans hn
    · cases (contains_of_slot? hslot).symm.trans hn
    · obtain rfl := Option.some.inj (hname.symm.trans hid')
      cases hp.symm.trans hn

theorem idle_resetAll (h : ∀ id ∈ ids, a.store.registry.get? id = none) :
    Idle (resetAll e ids) a := by
  induction ids with
  | nil => exact idle_pure
  | cons id ids ih =>
      rw [resetAll]
      refine ensures_bind (ensures_store ?_)
      rw [h id List.mem_cons_self]
      exact ih fun j hj => h j (List.mem_cons_of_mem _ hj)

theorem idle_overwriteAll
    (h : ∀ w ∈ cs, Idle (countChange (overwrite e w.declaration.property w.source)) a) :
    Idle (overwriteAll e cs) a := by
  induction cs with
  | nil => exact idle_pure
  | cons w cs ih =>
      exact (h w List.mem_cons_self).add (ih fun w' hw' => h w' (List.mem_cons_of_mem _ hw'))

theorem idle_applyMatched (h : a.store.Upholds e (winning a.store.registry matched)) :
    Idle (applyMatched e matched) a := by
  rw [applyMatched]
  refine ensures_bind (ensures_store ?_)
  refine Idle.add (idle_resetAll fun id hid => ?_) (idle_overwriteAll fun w hw => ?_)
  · obtain ⟨hruled, hnone⟩ := List.mem_filter.mp hid
    exact h.lost (Option.isNone_iff_eq_none.mp hnone) hruled
  · obtain ⟨id, -, hid⟩ := List.mem_filterMap.mp hw
    obtain ⟨slot, hslot, heq⟩ := h.won hid
    exact idle_overwrite (winning_accepted hid) hslot heq

theorem idle_cascadeAll
    (h : ∀ e ∈ es, a.store.Upholds e (verdicts a.store.registry c d rules e)) :
    Idle (cascadeAll c d rules es) a := by
  induction es with
  | nil => exact idle_pure
  | cons e es ih =>
      have upholds := h e List.mem_cons_self
      have ensured : Ensures (ensure d e) a (fun _ b => b = a) fun _ _ => False := by
        unfold ensure
        refine ensures_bind (ensures_store ?_)
        rw [upholds.known]
        exact ensures_pure rfl
      rw [cascadeAll]
      refine ensures_bind (ensured.mono ?_ fun _ _ h => h)
      rintro _ _ rfl
      exact (idle_applyMatched upholds).add (ih fun x hx => h x (List.mem_cons_of_mem _ hx))

theorem idle_cascadeTree (hl : a.store.Linked)
    (h : ∀ e ∈ d.subtreeElements top, a.store.Upholds e (verdicts a.store.registry c d rules e))
    (hp : a.store.contains top = false → ∀ x ∈ d.descendants top, d.isElement x = true →
      a.store.parent? x = d.parentElement? x) :
    Idle (cascadeTree c d rules top) a := by
  unfold cascadeTree
  refine ensures_bind (ensures_store ?_)
  cases ht : a.store.contains top with
  | true => exact idle_cascadeAll h
  | false =>
      -- only a top that is no element is unknown after a pass, and then everyone is planted again
      have noElement : d.isElement top = false := by
        by_contra he
        have known := (h top (List.mem_filter.mpr ⟨List.mem_cons_self, by simpa using he⟩)).known
        cases ht.symm.trans known
      have planted : a.store.insertTree d top = (.ok (), a.store) := by
        rw [insertTree, noElement]
        refine insertAll_self hl fun x hx he => ⟨?_, hp ht x hx he⟩
        exact (h x (List.mem_filter.mpr ⟨List.mem_cons_of_mem _ hx, he⟩)).known
      exact ensures_bind (ensures_applyPartial_ok planted (idle_cascadeAll h))

theorem Placed.upholds {s s' : Store} (hp : Placed d top (verdicts s.registry c d rules) s s')
    (hc : Passed s s' (verdicts s.registry c d rules) (d.subtreeElements top))
    (hv : ∀ rule ∈ rules, ∀ declaration ∈ rule.declarations,
      declaration.value.holdsNaN = false) (he : e ∈ d.subtreeElements top) :
    s'.Upholds e (verdicts s'.registry c d rules e) := by
  have content (id : PropertyId) : s'.content e id = verdict (s.registry.get? id).isSome
      (verdicts s.registry c d rules e id) (s.content e id) := by
    rw [hc.content, if_pos he]
  rw [hc.registry]
  refine ⟨hp.contains he, fun {id w} hw => ?_, fun {id} hw hruled => ?_⟩
  · obtain ⟨slot, hslot⟩ := Option.isSome_iff_exists.mp (hp.made he (by rw [hw]; rfl))
    obtain ⟨rule, hrule, hdecl⟩ := verdicts_declared hw
    have won : ((verdict (s.registry.get? id).isSome (some w) (s.content e id)).1 ==
        w.declaration.value) = true := verdict_won (hv rule hrule w.declaration hdecl)
    rw [← hw, ← content] at won
    have assigned : slot.assigned = (s'.content e id).1 := by
      rw [Store.content, slotAt_of_slot? hslot]
      rfl
    exact ⟨slot, hslot, assigned ▸ won⟩
  · have ruled : (s'.content e id).2.any (·.selector.isSome) = true := mem_ruled.mp hruled
    rw [content, hw] at ruled
    simpa [hc.registry] using verdict_lost ruled

theorem cascadeTree_idle (r : PropertyRegistry) (as : List StyleAction) (hd : d.Reached)
    (hv : ∀ rule ∈ rules, ∀ declaration ∈ rule.declarations,
      declaration.value.holdsNaN = false) :
    ∃ n b, cascadeTree c d rules top (StyleAction.run r as) = .ok n b ∧
      cascadeTree c d rules top b = .ok 0 b := by
  obtain ⟨n, b, hb, passed, placed⟩ := exists_cascadeTree (StyleAction.linked_run r as) hd.linked
  refine ⟨n, b, hb, ?_⟩
  have upholds (e : NodeId) (he : e ∈ d.subtreeElements top) := placed.upholds passed hv he
  refine (idle_cascadeTree passed.linked upholds fun ht x hx he => ?_).result_eq
  have unknown : (StyleAction.run r as).store.contains top = false := by
    by_contra hn
    cases ht.symm.trans (passed.contains (by simpa using hn))
  rw [placed.parent hx he, unknown]
  rfl

theorem cascadeTree_idle_regrouped : regrouped.Reached ∧
    (∀ rule ∈ colored "red", ∀ declaration ∈ rule.declarations,
      declaration.value.holdsNaN = false) ∧
    ∃ b, cascadeTree .standard regrouped (colored "red") ⟨0, 0⟩
        (StyleAction.run StyleOperation.ink nestedPass) = .ok 4 b ∧
      cascadeTree .standard regrouped (colored "red") ⟨0, 0⟩ b = .ok 0 b := by
  have numbers : ∀ rule ∈ colored "red", ∀ declaration ∈ rule.declarations,
      declaration.value.holdsNaN = false := by
    intro rule hrule declaration hdecl
    obtain rfl := List.mem_singleton.mp hrule
    obtain rfl := List.mem_singleton.mp hdecl
    rfl
  have answer : answer? (cascadeTree .standard regrouped (colored "red") ⟨0, 0⟩
      (StyleAction.run StyleOperation.ink nestedPass)) = some 4 := by cbv
  obtain ⟨n, b, hb, again⟩ := cascadeTree_idle StyleOperation.ink nestedPass regrouped_reached numbers
  obtain rfl : n = 4 := by
    rw [hb] at answer
    exact Option.some.inj answer
  exact ⟨regrouped_reached, numbers, b, hb, again⟩

end StyleM

end CssStyling
