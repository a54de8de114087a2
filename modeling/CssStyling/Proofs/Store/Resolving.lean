import CssStyling.Proofs.Store.Reading

namespace CssStyling.StyleM

open Store

variable {layout : Layout} {s t : Store} {a : Activity} {p : PropertyDefinition}
  {id : PropertyId} {e parent : NodeId} {u v : Value} {l : List NodeId} {n : Nat}

structure SpecifiedRead (layout : Layout) (s t : Store) (l : List NodeId) (e : NodeId)
    (id : PropertyId) (v : Value) (b : Activity) : Prop extends
    ReadsOn layout s t l b.store where
  kept : (b.store.slotAt e id).specified = some v
  computed : (b.store.slotAt e id).computed = (t.slotAt e id).computed

structure ComputedRead (layout : Layout) (s t : Store) (l : List NodeId) (e : NodeId)
    (id : PropertyId) (v : Value) (b : Activity) : Prop extends
    ReadsOn layout s t l b.store where
  kept : (b.store.slotAt e id).computed = some v

def SpecifiedReads (layout : Layout) (s : Store) (n : Nat) : Prop :=
  ∀ {a : Activity} {e : NodeId} {l : List NodeId} (id : PropertyId),
    Reads layout s a.store → Lineage s.parent? e l → 2 * l.length ≤ n + 1 →
    Ensures (specifiedWithin layout n e id) a (SpecifiedRead layout s a.store l e id)
      (fun _ b => Reads layout s b.store)

def ComputedReads (layout : Layout) (s : Store) (n : Nat) : Prop :=
  ∀ {a : Activity} {e : NodeId} {l : List NodeId} (id : PropertyId),
    Reads layout s a.store → Lineage s.parent? e l → 2 * l.length ≤ n →
    Ensures (computedWithin layout n e id) a (ComputedRead layout s a.store l e id)
      (fun _ b => Reads layout s b.store)

def AboveReads (layout : Layout) (s : Store) (n : Nat) : Prop :=
  ∀ {a : Activity} {e : NodeId} {l : List NodeId} (id : PropertyId),
    Reads layout s a.store → Lineage s.parent? e l → 2 * l.length ≤ n + 1 →
    Ensures (resolveAbove layout n e id) a (fun _ b => ReadsOn layout s a.store l.tail b.store)
      (fun _ b => Reads layout s b.store)

theorem ensures_keepSpecified (h : ReadsOn layout s t l a.store) (he : e ∈ l)
    (same : a.store.slotAt e id = t.slotAt e id) (hc : a.store.contains e = true)
    (hp : a.store.registry.get? id = some p) (hn : (t.slotAt e id).specified = none)
    (tied : a.store.SpecifiedTied p id e v) :
    Ensures (keepSpecified e id v) a (SpecifiedRead layout s t l e id)
      (fun _ b => Reads layout s b.store) := by
  unfold keepSpecified
  refine ensures_bind (ensures_modifyStore (ensures_pure ?_))
  refine ⟨h.step he (.specified hc hp (same ▸ hn) tied), ?_, ?_⟩
  · simp
  · simp [same]

theorem ensures_keepComputed (h : ReadsOn layout s t l a.store) (he : e ∈ l)
    (hc : a.store.contains e = true) (hp : a.store.registry.get? id = some p)
    (hn : (a.store.slotAt e id).computed = none) (hu : (a.store.slotAt e id).specified = some u)
    (tied : a.store.ComputedTied layout p id e u v) :
    Ensures (keepComputed e id v) a (ComputedRead layout s t l e id)
      (fun _ b => Reads layout s b.store) := by
  unfold keepComputed
  refine ensures_bind (ensures_modifyStore (ensures_pure ?_))
  exact ⟨h.step he (.computed hc hp hn hu tied), by simp⟩

theorem ensures_resolvePercentage {x : Float} :
    Ensures (resolvePercentage layout p e x) a
      (fun v b => b.store = a.store ∧
        ∃ resolver, p.percentage = some resolver ∧ (resolver layout e x).2 = .ok v)
      (fun _ b => b.store = a.store) := by
  unfold resolvePercentage
  cases hr : p.percentage with
  | none => exact ensures_throw rfl
  | some resolver =>
      refine ensures_bind (ensures_ask ?_)
      cases hv : (resolver layout e x).2 with
      | error error => exact ensures_throw rfl
      | ok value => exact ensures_pure ⟨rfl, resolver, rfl, hv⟩

theorem resolveLength_of_ne {x : Float} {unit : LengthUnit} (h : unit ≠ .px) :
    resolveLength layout e x unit = (do
      ask [.unit e unit]
      match layout.unitScale e unit with
      | none => throw (.resolution (.unknownUnit e unit))
      | some scale => return .px (x * scale)) := by
  cases unit <;> first | rfl | exact absurd rfl h

theorem ensures_resolveLength {x : Float} {unit : LengthUnit} :
    Ensures (resolveLength layout e x unit) a
      (fun v b => b.store = a.store ∧ (unit = .px ∧ v = .dimension x .px ∨
        unit ≠ .px ∧ ∃ scale, layout.unitScale e unit = some scale ∧ v = .px (x * scale)))
      (fun _ b => b.store = a.store) := by
  by_cases hunit : unit = .px
  · subst unit
    exact ensures_pure ⟨rfl, .inl ⟨rfl, rfl⟩⟩
  · rw [resolveLength_of_ne hunit]
    refine ensures_bind (ensures_ask ?_)
    cases hscale : layout.unitScale e unit with
    | none => exact ensures_throw rfl
    | some scale => exact ensures_pure ⟨rfl, .inr ⟨hunit, scale, rfl, rfl⟩⟩

theorem specifiedReads_succ (hl : s.Linked) (computed : ComputedReads layout s n)
    (above : AboveReads layout s n) : SpecifiedReads layout s (n + 1) := by
  intro a e l id ha hlin hlen
  have hg := ha.grown
  rw [specifiedWithin]
  refine ensures_bind (ensures_definition (fun p hp => ?_) fun _ _ => ha)
  refine ensures_bind (ensures_store ?_)
  cases helement : a.store.element? e with
  | none => exact ensures_throw ha
  | some element =>
      have hc : a.store.contains e = true := by simp [contains, helement]
      have hparent : a.store.parent? e = element.parent := by simp [parent?, helement]
      simp only [slot?_bind_specified]
      cases hn : (a.store.slotAt e id).specified with
      | some v => exact ensures_pure ⟨.refl ha, hn, rfl⟩
      | none =>
          have keep {v : Value} (tied : a.store.SpecifiedTied p id e v) :=
            ensures_keepSpecified (.refl ha) hlin.mem_self rfl hc hp hn tied
          simp only
          split
          · rename_i hd
            cases hpar : element.parent with
            | none => exact keep (.initial hd (.inr (hparent.trans hpar)))
            | some parent =>
                simp only
                split
                · rename_i hi
                  have hp' : s.parent? e = some parent :=
                    hg.parent e ▸ hparent.trans hpar
                  obtain ⟨t, rfl, ht⟩ := hlin.of_parent hp'
                  simp only [List.length_cons] at hlen
                  refine ensures_bind ((above id ha ht (by omega)).mono ?_ fun _ _ h => h)
                  intro _ b hb
                  refine ensures_bind ((computed id hb.reads ht (by omega)).mono ?_ fun _ _ h => h)
                  intro v c hv
                  refine ensures_bind (ensures_modifyStore ?_)
                  have hon := ((hb.mono (List.tail_subset t)).trans hv.toReadsOn
                    (List.Subset.refl t)).depend hl hp' ht.mem_self id
                  -- the element is not above itself, so its own slot is as it was
                  have same := hon.outside (List.nodup_cons.mp hlin.nodup).1 id
                  have hg' := hon.reads.grown
                  refine ensures_keepSpecified (hon.mono (List.subset_cons_self e t))
                    List.mem_cons_self same ((hg'.contains e).trans (hg.contains e ▸ hc))
                    (hg'.registry ▸ hg.registry ▸ hp) hn ?_
                  refine .inherited ?_ hi ((hg'.parent e).trans hp')
                    mem_dependents_slotAt_addDependent ?_
                  · rwa [assigned, same]
                  · rw [computed_slotAt_addDependent]
                    exact hv.kept
                · rename_i hi
                  exact keep (.initial hd (.inl (by simpa using hi)))
          · rename_i hd
            exact keep (.assigned (by simpa using hd))

theorem computedReads_succ (hl : s.Linked) (specified : SpecifiedReads layout s n) :
    ComputedReads layout s (n + 1) := by
  intro a e l id ha hlin hlen
  rw [computedWithin]
  refine ensures_bind (ensures_definition (fun p hp => ?_) fun _ _ => ha)
  refine ensures_bind (ensures_store ?_)
  simp only [slot?_bind_computed]
  cases hn : (a.store.slotAt e id).computed with
  | some v => exact ensures_pure ⟨.refl ha, hn⟩
  | none =>
      refine ensures_bind ((specified id ha hlin (by omega)).mono ?_ fun _ _ h => h)
      intro u b hu
      have hg := hu.reads.grown
      have hne : b.store.slotAt e id ≠ .empty := by
        intro h
        have hkept := hu.kept
        simp [h, PropertySlot.empty] at hkept
      have hc := contains_of_slotAt_ne hne
      have hp' : b.store.registry.get? id = some p := by
        rwa [hg.registry, ← ha.grown.registry]
      have keep {v : Value} {c : Activity} (hbc : c.store = b.store)
          (tied : b.store.ComputedTied layout p id e u v) :=
        ensures_keepComputed (a := c) (hbc ▸ hu.toReadsOn) hlin.mem_self (hbc ▸ hc) (hbc ▸ hp')
          (hbc ▸ hu.computed.trans hn) (hbc ▸ hu.kept) (hbc ▸ tied)
      cases u with
      | percentage x =>
          refine ensures_bind (ensures_resolvePercentage.mono ?_ fun _ c hbc => hbc ▸ hu.reads)
          rintro v c ⟨hbc, resolver, hr, hv⟩
          exact keep hbc (.percentage hr hv)
      | dimension x unit =>
          refine ensures_bind (ensures_resolveLength.mono ?_ fun _ c hbc => hbc ▸ hu.reads)
          rintro v c ⟨hbc, ⟨rfl, rfl⟩ | ⟨hunit, scale, hscale, rfl⟩⟩
          · exact keep hbc .px
          · exact keep hbc (.length hunit hscale)
      | inherit =>
          refine ensures_bind (ensures_store ?_)
          rw [hg.parent e]
          cases hpar : s.parent? e with
          | none => exact keep rfl (.atRoot ((hg.parent e).trans hpar))
          | some parent =>
              obtain ⟨t, rfl, ht⟩ := hlin.of_parent hpar
              simp only [List.length_cons] at hlen
              refine ensures_bind ((specified id hu.reads ht (by omega)).mono ?_ fun _ _ h => h)
              intro v c hv
              refine ensures_bind (ensures_modifyStore ?_)
              have hon := hv.toReadsOn.depend hl hpar ht.mem_self id
              have same := hon.outside (List.nodup_cons.mp hlin.nodup).1 id
              have hg' := hon.reads.grown
              refine ensures_keepComputed (hu.toReadsOn.trans (hon.mono (List.subset_cons_self e t))
                (List.Subset.refl _)) List.mem_cons_self ((hg'.contains e).trans (hg.contains e ▸ hc))
                (hg'.registry ▸ hg.registry ▸ hp') (same ▸ hu.computed.trans hn) (same ▸ hu.kept) ?_
              refine .ofParent ((hg'.parent e).trans hpar) mem_dependents_slotAt_addDependent ?_
              rw [specified_slotAt_addDependent]
              exact hv.kept
      | _ => exact keep rfl (.plain rfl)

theorem aboveReads_succ (computed : ComputedReads layout s n)
    (above : AboveReads layout s n) : AboveReads layout s (n + 1) := by
  intro a e l id ha hlin hlen
  rw [resolveAbove]
  refine ensures_bind (ensures_store ?_)
  rw [ha.grown.parent e]
  cases hp : s.parent? e with
  | none => exact ensures_pure (.refl ha)
  | some parent =>
      obtain ⟨t, rfl, ht⟩ := hlin.of_parent hp
      simp only [List.length_cons] at hlen
      simp only [List.tail_cons]
      split
      · split
        · refine ensures_bind ((above id ha ht (by omega)).mono ?_ fun _ _ h => h)
          intro _ b hb
          refine ensures_bind ((computed id hb.reads ht (by omega)).mono ?_ fun _ _ h => h)
          intro _ c hv
          exact ensures_pure ((hb.mono (List.tail_subset t)).trans hv.toReadsOn
            (List.Subset.refl t))
        · refine ensures_bind ((computed id ha ht (by omega)).mono ?_ fun _ _ h => h)
          intro _ c hv
          exact ensures_pure hv.toReadsOn
      · exact ensures_pure (.refl ha)

theorem reads_within (hl : s.Linked) (n : Nat) :
    SpecifiedReads layout s n ∧ ComputedReads layout s n ∧ AboveReads layout s n := by
  induction n with
  | zero =>
      refine ⟨?_, ?_, ?_⟩
      all_goals
        intro a e l id _ hlin hlen
        have hpos := hlin.length_pos
        omega
  | succ n ih =>
      obtain ⟨specified, computed, above⟩ := ih
      exact ⟨specifiedReads_succ hl computed above, computedReads_succ hl specified,
        aboveReads_succ computed above⟩

theorem ensures_specifiedById (hl : a.store.Linked) :
    Ensures (specifiedById layout e id) a
      (fun v b => Reads layout a.store b.store ∧ (b.store.slotAt e id).specified = some v)
      (fun _ b => Reads layout a.store b.store) := by
  obtain ⟨l, hlin⟩ := hl.rooted e
  have hlen := hl.lineage_length_le hlin
  refine ensures_bind (ensures_bind (ensures_store (ensures_pure ?_)))
  exact ((reads_within hl _).1 id .refl hlin (by omega)).mono
    (fun v b hv => ⟨hv.reads, hv.kept⟩) fun _ _ h => h

theorem ensures_computedById (hl : a.store.Linked) :
    Ensures (computedById layout e id) a
      (fun v b => Reads layout a.store b.store ∧ (b.store.slotAt e id).computed = some v)
      (fun _ b => Reads layout a.store b.store) := by
  obtain ⟨l, hlin⟩ := hl.rooted e
  have hlen := hl.lineage_length_le hlin
  refine ensures_bind (ensures_bind (ensures_store (ensures_pure ?_)))
  exact ((reads_within hl _).2.1 id .refl hlin (by omega)).mono
    (fun v b hv => ⟨hv.reads, hv.kept⟩) fun _ _ h => h

end CssStyling.StyleM
