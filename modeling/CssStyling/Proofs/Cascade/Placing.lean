import CssStyling.Proofs.Cascade.Actions
import CssStyling.Proofs.Cascade.History
import Mathlib

namespace CssStyling

namespace Store

variable {s s' s'' t : Store} {e x : NodeId} {id j : PropertyId} {slot : PropertySlot}
  {changed : Bool} {es : List NodeId} {d : Document}
  {winner : NodeId → PropertyId → Option Candidate}

@[simp] theorem parent?_forget (visits : Nat) (work : List NodeId) :
    (s.forget id visits work).parent? x = s.parent? x := by
  induction visits generalizing s work with
  | zero => rfl
  | succ visits ih =>
      cases work with
      | nil => rfl
      | cons e rest =>
          simp only [forget]
          cases s.slot? e id with
          | none => exact ih rest
          | some slot => exact (ih _).trans parent?_modifySlot

theorem slot?_modifySlot_isSome {f : PropertySlot → PropertySlot}
    (h : (s.slot? x j).isSome = true) : ((s.modifySlot e id f).slot? x j).isSome = true := by
  rw [slot?_modifySlot]
  split
  · rfl
  · exact h

theorem slot?_forget_isSome (visits : Nat) (work : List NodeId)
    (h : (s.slot? x j).isSome = true) : ((s.forget id visits work).slot? x j).isSome = true := by
  induction visits generalizing s work with
  | zero => exact h
  | succ visits ih =>
      cases work with
      | nil => exact h
      | cons e rest =>
          simp only [forget]
          cases s.slot? e id with
          | none => exact ih rest h
          | some slot => exact ih _ (slot?_modifySlot_isSome h)

theorem slot?_add (h : s.contains e = false) {parent : Option NodeId} :
    (s.add e parent).slot? x j = s.slot? x j := by
  simp only [slot?, element?_add]
  split
  · rename_i hx
    have hnone : s.element? x = none := by simpa [contains, ← hx] using h
    simp [hnone, StyledElement.slot?]
  · rfl

structure Stays (s s' : Store) : Prop where
  registry : s'.registry = s.registry
  contains (x : NodeId) : s'.contains x = s.contains x
  parent (x : NodeId) : s'.parent? x = s.parent? x
  slot {x : NodeId} {j : PropertyId} :
    (s.slot? x j).isSome = true → (s'.slot? x j).isSome = true

theorem Stays.refl (s : Store) : Stays s s :=
  ⟨rfl, fun _ => rfl, fun _ => rfl, id⟩

theorem Stays.trans (h : Stays s s') (h' : Stays s' s'') : Stays s s'' where
  registry := h'.registry.trans h.registry
  contains x := (h'.contains x).trans (h.contains x)
  parent x := (h'.parent x).trans (h.parent x)
  slot hx := h'.slot (h.slot hx)

theorem stays_written (he : s.contains e = true) : Stays s (s.written e id slot changed) where
  registry := registry_written
  contains _ := contains_written he
  parent x := by
    cases changed with
    | false => exact parent?_modifySlot
    | true => exact (parent?_forget _ _).trans parent?_modifySlot
  slot hx := by
    cases changed with
    | false => exact slot?_modifySlot_isSome hx
    | true => exact slot?_forget_isSome _ _ (slot?_modifySlot_isSome hx)

theorem slot?_written_isSome : ((s.written e id slot changed).slot? e id).isSome = true := by
  have written : ((s.modifySlot e id fun _ => slot).slot? e id).isSome = true := by
    simp [slot?_modifySlot]
  cases changed with
  | false => exact written
  | true => exact slot?_forget_isSome _ _ written

structure Visited (d : Document) (winner : NodeId → PropertyId → Option Candidate)
    (s s' : Store) (es : List NodeId) : Prop where
  registry : s'.registry = s.registry
  contains (x : NodeId) : s'.contains x = (decide (x ∈ es) || s.contains x)
  parent (x : NodeId) : s'.parent? x =
    if x ∈ es ∧ s.contains x = false then d.parentElement? x else s.parent? x
  slot {x : NodeId} {j : PropertyId} :
    (s.slot? x j).isSome = true → (s'.slot? x j).isSome = true
  made {x : NodeId} {j : PropertyId} : x ∈ es → (winner x j).isSome = true →
    (s'.slot? x j).isSome = true

theorem Visited.nil : Visited d winner s s [] :=
  ⟨rfl, fun _ => by simp, fun _ => by simp, id, fun h => absurd h List.not_mem_nil⟩

theorem Visited.cons (h : Visited d winner s t [e]) (h' : Visited d winner t s' es) :
    Visited d winner s s' (e :: es) where
  registry := h'.registry.trans h.registry
  contains x := by
    rw [h'.contains, h.contains, Bool.eq_iff_iff]
    simp only [List.mem_cons, Bool.or_eq_true, decide_eq_true_eq]
    tauto
  parent x := by
    rw [h'.parent, h.parent, h.contains]
    by_cases hx : x = e
    · subst x
      simp
    · simp [hx]
  slot hx := h'.slot (h.slot hx)
  made {x j} hx hw := by
    rcases List.mem_cons.mp hx with rfl | hx
    · exact h'.slot (h.made List.mem_cons_self hw)
    · exact h'.made hx hw

end Store

namespace StyleM

open Store

variable {a : Activity} {e : NodeId} {name : String} {id : PropertyId} {es l known : List NodeId}
  {matched : List MatchedRule} {c : MatchingContext} {d : Document} {rules : List Rule}
  {top : NodeId} {w : StyleM Bool} {winner : NodeId → PropertyId → Option Candidate}

theorem Writes.stays (h : Writes e name w) :
    Ensures w a
      (fun _ b => Stays a.store b.store ∧ ∀ id, a.store.registry.id? name = some id →
        (b.store.slot? e id).isSome = true)
      fun _ b => Stays a.store b.store := by
  obtain ⟨-⟩ := h
  refine ensures_write ?_ ?_ fun _ _ => .refl _
  · intro id p slot changed hid he _ _
    refine ⟨stays_written he, fun id' hid' => ?_⟩
    obtain rfl := Option.some.inj (hid.symm.trans hid')
    exact slot?_written_isSome
  · intro id p error _ he _ _
    have untouched : Stays a.store (a.store.written e id (a.store.slotAt e id) false) :=
      stays_written he
    exact untouched

theorem tallies_stays : Tallies fun a _ b => Stays a.store b.store where
  refl a := .refl a.store
  trans h h' := h.trans h'

theorem countsWrites_stays (e : NodeId) : CountsWrites (fun a _ b => Stays a.store b.store) e where
  reset _ name := (writes_reset e name).stays.mono (fun _ _ hb => hb.1) fun _ _ hb => hb
  overwrite _ name source :=
    (writes_overwrite e name source).stays.mono (fun _ _ hb => hb.1) fun _ _ hb => hb

theorem ensures_overwriteAll_made (cs : List Candidate) :
    Ensures (overwriteAll e cs) a
      (fun _ b => ∀ c ∈ cs, ∀ id, a.store.registry.id? c.declaration.property = some id →
        (b.store.slot? e id).isSome = true)
      fun _ _ => True := by
  induction cs generalizing a with
  | nil => exact ensures_pure fun _ h => absurd h List.not_mem_nil
  | cons c cs ih =>
      rw [overwriteAll, countChange, bind_assoc]
      refine ensures_bind ((writes_overwrite e c.declaration.property c.source).stays.mono ?_
        fun _ _ _ => trivial)
      rintro changed b ⟨hstays, hmade⟩
      have rest : Ensures (overwriteAll e cs) b
          (fun _ b' => (∀ c ∈ cs, ∀ id,
            b.store.registry.id? c.declaration.property = some id →
              (b'.store.slot? e id).isSome = true) ∧ Stays b.store b'.store) fun _ _ => True :=
        (ih.and (tallies_stays.overwriteAll (countsWrites_stays e) cs b)).mono (fun _ _ h => h)
          fun _ _ _ => trivial
      refine ensures_bind (ensures_pure (ensures_bind (rest.mono ?_ fun _ _ h => h)))
      rintro n b' ⟨hrest, hstays'⟩
      refine ensures_pure fun c' hc' id hid => ?_
      rcases List.mem_cons.mp hc' with rfl | hc'
      · exact hstays'.slot (hmade id hid)
      · exact hrest c' hc' id (hstays.registry ▸ hid)

theorem ensures_applyMatched_made :
    Ensures (applyMatched e matched) a
      (fun _ b => ∀ id, (winning a.store.registry matched id).isSome = true →
        (b.store.slot? e id).isSome = true)
      fun _ _ => True := by
  rw [applyMatched]
  refine ensures_bind (ensures_store ?_)
  refine ensures_bind ((tallies_stays.resetAll (countsWrites_stays e) _ a).mono ?_
    fun _ _ _ => trivial)
  intro n b hb
  refine ensures_bind ((ensures_overwriteAll_made _).mono ?_ fun _ _ _ => trivial)
  intro m b' hb'
  refine ensures_pure fun id hsome => ?_
  obtain ⟨c, hc⟩ := Option.isSome_iff_exists.mp hsome
  obtain ⟨hname, p, hp, -⟩ := Candidate.property?_eq_some.mp (winning_accepted hc)
  refine hb' c (List.mem_filterMap.mpr ⟨id, ?_, hc⟩) id (hb.registry ▸ hname)
  exact List.mem_range.mpr (PropertyRegistry.lt_size hp)

theorem ensures_ensure_visited (he : a.store.contains e = true ∨
      ∀ p, d.parentElement? e = some p → a.store.contains p = true) :
    Ensures (ensure d e) a
      (fun _ b => Visited d (fun _ _ => none) a.store b.store [e] ∧ b.store.contains e = true)
      fun _ _ => True := by
  unfold ensure
  refine ensures_bind (ensures_store ?_)
  cases hc : a.store.contains e with
  | true =>
      refine ensures_pure ⟨⟨rfl, fun x => ?_, fun x => ?_, id, fun _ h => by simp at h⟩, hc⟩
      · by_cases hx : x = e <;> simp [hx, hc]
      · by_cases hx : x = e <;> simp [hx, hc]
  | false =>
      have hp : ∀ p, d.parentElement? e = some p → a.store.contains p = true := by
        simpa [hc] using he
      have known : a.store.knownParent? d e = d.parentElement? e := by
        unfold knownParent?
        cases hq : d.parentElement? e with
        | none => rfl
        | some q => simp [hp q hq]
      refine ensures_apply (fun s hs => ?_) fun _ _ => trivial
      rw [known, insert_eq_add hc hp] at hs
      obtain rfl := Except.ok.inj hs
      refine ⟨⟨rfl, fun x => ?_, fun x => ?_, fun hx => ?_, fun _ h => by simp at h⟩, ?_⟩
      · simp [contains_add, eq_comm]
      · rw [parent?_add]
        by_cases hx : x = e
        · simp [hx, hc]
        · simp [hx, Ne.symm hx]
      · rwa [slot?_add hc]
      · simp [contains_add]

theorem ensures_cascadeAll_cons {r : PropertyRegistry} (hr : a.store.registry = r)
    (he : a.store.contains e = true ∨
      ∀ p, d.parentElement? e = some p → a.store.contains p = true)
    (rest : ∀ b : Activity, b.store.registry = r →
      Visited d (verdicts r c d rules) a.store b.store [e] →
      Ensures (cascadeAll c d rules es) b
        (fun _ b' => Visited d (verdicts r c d rules) b.store b'.store es) fun _ _ => True) :
    Ensures (cascadeAll c d rules (e :: es)) a
      (fun _ b => Visited d (verdicts r c d rules) a.store b.store (e :: es))
      fun _ _ => True := by
  rw [cascadeAll]
  refine ensures_bind ((ensures_ensure_visited he).mono ?_ fun _ _ h => h)
  rintro _ b ⟨hb, hc⟩
  have applied := ensures_applyMatched_made.and
    (tallies_stays.applyMatched (countsWrites_stays e) (MatchedRule.collect c d e rules) b)
  refine ensures_bind (applied.mono ?_ fun _ _ _ => trivial)
  rintro n b' ⟨hmade, hstays⟩
  have visited : Visited d (verdicts r c d rules) a.store b'.store [e] := by
    refine ⟨hstays.registry.trans hb.registry, fun x => (hstays.contains x).trans (hb.contains x),
      fun x => (hstays.parent x).trans (hb.parent x), fun hx => hstays.slot (hb.slot hx), ?_⟩
    intro x j hx hw
    obtain rfl := List.mem_singleton.mp hx
    refine hmade j ?_
    rwa [hb.registry, hr]
  refine ensures_bind ((rest b' (visited.registry.trans hr) visited).mono ?_ fun _ _ h => h)
  exact fun m b'' hb'' => ensures_pure (visited.cons hb'')

theorem ensures_cascadeAll_below {r : PropertyRegistry} (hr : a.store.registry = r)
    (order : d.TopDown known l)
    (hk : ∀ p ∈ known, d.isElement p = true → a.store.contains p = true) :
    Ensures (cascadeAll c d rules (l.filter d.isElement)) a
      (fun _ b => Visited d (verdicts r c d rules) a.store b.store (l.filter d.isElement))
      fun _ _ => True := by
  -- along the order, in which a parent is among the known nodes when its children's turn comes
  induction order generalizing a with
  | nil => exact ensures_pure .nil
  | @cons known l e p hp hmem _ ih =>
      cases he : d.isElement e with
      | false =>
          rw [List.filter_cons_of_neg (by simp [he])]
          refine ih hr fun q hq hqe => ?_
          rcases List.mem_cons.mp hq with rfl | hq
          · simp [he] at hqe
          · exact hk q hq hqe
      | true =>
          rw [List.filter_cons_of_pos he]
          refine ensures_cascadeAll_cons hr (.inr fun q hq => ?_) fun b hb visited => ?_
          · obtain ⟨hq, hqe⟩ := Option.filter_eq_some_iff.mp hq
            obtain rfl := Option.some.inj (hp.symm.trans hq)
            exact hk p hmem hqe
          · refine ih hb fun q hq hqe => ?_
            rw [visited.contains]
            rcases List.mem_cons.mp hq with rfl | hq
            · simp
            · simp [hk q hq hqe]

theorem ensures_cascadeAll_subtree {r : PropertyRegistry} (hr : a.store.registry = r)
    (hd : d.Linked) (ht : d.isElement top = true → a.store.contains top = true) :
    Ensures (cascadeAll c d rules (d.subtreeElements top)) a
      (fun _ b => Visited d (verdicts r c d rules) a.store b.store (d.subtreeElements top))
      fun _ _ => True := by
  have order := hd.topDown_descendants top
  unfold Document.subtreeElements Document.subtree
  cases he : d.isElement top with
  | false =>
      rw [List.filter_cons_of_neg (by simp [he])]
      exact ensures_cascadeAll_below hr order (by simp [he])
  | true =>
      rw [List.filter_cons_of_pos he]
      refine ensures_cascadeAll_cons hr (.inl (ht he)) fun b hb visited => ?_
      refine ensures_cascadeAll_below hb order fun p hp _ => ?_
      obtain rfl := List.mem_singleton.mp hp
      simp [visited.contains]

structure Placed (d : Document) (top : NodeId)
    (winner : NodeId → PropertyId → Option Candidate) (s s' : Store) : Prop where
  contains {x : NodeId} : x ∈ d.subtreeElements top → s'.contains x = true
  made {x : NodeId} {j : PropertyId} : x ∈ d.subtreeElements top →
    (winner x j).isSome = true → (s'.slot? x j).isSome = true
  parent {x : NodeId} : x ∈ d.descendants top → d.isElement x = true → s'.parent? x =
    if s.contains top = true ∧ s.contains x = true then s.parent? x else d.parentElement? x

theorem ensures_cascadeTree_placed (hl : a.store.Linked) (hd : d.Linked) :
    Ensures (cascadeTree c d rules top) a
      (fun _ b => Placed d top (verdicts a.store.registry c d rules) a.store b.store)
      fun _ _ => True := by
  have element {x : NodeId} (hx : x ∈ d.descendants top) (he : d.isElement x = true) :
      x ∈ d.subtreeElements top :=
    List.mem_filter.mpr ⟨List.mem_cons_of_mem _ hx, he⟩
  unfold cascadeTree
  refine ensures_bind (ensures_store ?_)
  cases ht : a.store.contains top with
  | true =>
      refine (ensures_cascadeAll_subtree rfl hd fun _ => ht).mono (fun n b visited => ?_)
        fun _ _ h => h
      refine ⟨fun hx => by simp [visited.contains, hx], visited.made, fun {x} hx he => ?_⟩
      rw [visited.parent]
      cases a.store.contains x <;> simp [element hx he, ht]
  | false =>
      -- the whole subtree is planted, so also those who were known come below their parents
      obtain ⟨s, hs, hkept, hmirrors⟩ := exists_insertTree hl hd top
      refine ensures_bind (ensures_applyPartial_ok hs ?_)
      have known {x : NodeId} (hx : x ∈ d.subtreeElements top) : s.contains x = true := by
        obtain ⟨hx, he⟩ := List.mem_filter.mp hx
        exact hmirrors.contains (by simpa [Document.subtree, or_comm] using hx) he
      have first (he : d.isElement top = true) : s.contains top = true :=
        known (List.mem_filter.mpr ⟨List.mem_cons_self, he⟩)
      refine (ensures_cascadeAll_subtree hkept.registry hd first).mono (fun n b visited => ?_)
        fun _ _ h => h
      refine ⟨fun hx => by simp [visited.contains, hx], visited.made, fun {x} hx he => ?_⟩
      have hne : x ≠ top := by
        rintro rfl
        exact (List.nodup_cons.mp (hd.nodup_subtree x)).1 hx
      rw [visited.parent, known (element hx he), hmirrors.parent (by simp [hx]) he, if_neg hne]
      simp [ht]

theorem exists_cascadeTree (hl : a.store.Linked) (hd : d.Linked) :
    ∃ n b, cascadeTree c d rules top a = .ok n b ∧
      Passed a.store b.store (verdicts a.store.registry c d rules) (d.subtreeElements top) ∧
      Placed d top (verdicts a.store.registry c d rules) a.store b.store := by
  have passed : Ensures (cascadeTree c d rules top) a (fun _ b => Passed a.store b.store
      (verdicts a.store.registry c d rules) (d.subtreeElements top)) fun _ _ => False :=
    ensures_cascadeTree hl hd
  have both := passed.and (ensures_cascadeTree_placed hl hd)
  exact (both.mono (fun _ _ h => h) fun _ _ h => h.1).exists_ok

theorem cascadeTree_places (r : PropertyRegistry) (as : List StyleAction) (hd : d.Reached) :
    ∃ n b, cascadeTree c d rules top (StyleAction.run r as) = .ok n b ∧
      ∀ x ∈ d.descendants top, d.isElement x = true →
        b.store.contains x = true ∧ b.store.parent? x =
          if (StyleAction.run r as).store.contains top = true ∧
              (StyleAction.run r as).store.contains x = true
          then (StyleAction.run r as).store.parent? x else d.parentElement? x := by
  obtain ⟨n, b, hb, -, placed⟩ := exists_cascadeTree (StyleAction.linked_run r as) hd.linked
  refine ⟨n, b, hb, fun x hx he => ⟨placed.contains ?_, placed.parent hx he⟩⟩
  exact List.mem_filter.mpr ⟨List.mem_cons_of_mem _ hx, he⟩

def paragraphs : Document :=
  (((paragraph.create (.element ⟨none, "p", []⟩)).2.create (.element ⟨none, "p", []⟩)).2.create
    (.element ⟨none, "p", []⟩)).2

def nested : Document :=
  (((paragraphs.append ⟨0, 0⟩ ⟨1, 0⟩).2.append ⟨1, 0⟩ ⟨2, 0⟩).2.append ⟨0, 0⟩ ⟨3, 0⟩).2

def regrouped : Document :=
  (nested.append ⟨3, 0⟩ ⟨2, 0⟩).2

theorem regrouped_reached : regrouped.Reached := by
  have four : paragraphs.Reached := .create (.create (.create (.create .empty _) _) _) _
  exact .insertBefore (.insertBefore (.insertBefore (.insertBefore four _ _ _) _ _ _) _ _ _) _ _ _

def nestedPass : List StyleAction :=
  [.cascadeTree .standard nested [] ⟨0, 0⟩]

theorem cascadeTree_places_regrouped : regrouped.Reached ∧
    ∃ n b, cascadeTree .standard regrouped (colored "red") ⟨0, 0⟩
        (StyleAction.run StyleOperation.ink nestedPass) = .ok n b ∧
      ∀ x ∈ regrouped.descendants ⟨0, 0⟩, regrouped.isElement x = true →
        b.store.contains x = true ∧ b.store.parent? x =
          if (StyleAction.run StyleOperation.ink nestedPass).store.contains ⟨0, 0⟩ = true ∧
              (StyleAction.run StyleOperation.ink nestedPass).store.contains x = true
          then (StyleAction.run StyleOperation.ink nestedPass).store.parent? x
          else regrouped.parentElement? x :=
  ⟨regrouped_reached, cascadeTree_places _ _ regrouped_reached⟩

theorem regrouped_keeps_parent :
    regrouped.descendants ⟨0, 0⟩ = [⟨1, 0⟩, ⟨3, 0⟩, ⟨2, 0⟩] ∧
      regrouped.isElement ⟨2, 0⟩ = true ∧
      regrouped.parentElement? ⟨2, 0⟩ = some ⟨3, 0⟩ ∧
      answer? (cascadeTree .standard regrouped [] ⟨0, 0⟩
        (StyleAction.run StyleOperation.ink nestedPass)) = some 0 ∧
      (after (cascadeTree .standard regrouped [] ⟨0, 0⟩)
        (StyleAction.run StyleOperation.ink nestedPass)).store.parent? ⟨2, 0⟩ = some ⟨1, 0⟩ :=
  ⟨by cbv, by cbv, by cbv, by cbv, by cbv⟩

end StyleM

end CssStyling
