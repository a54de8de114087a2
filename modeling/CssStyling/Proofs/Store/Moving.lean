import CssStyling.Proofs.Store.Freshness

namespace CssStyling.Store

variable {layout : Layout} {s s' : Store} {id j : PropertyId} {e d p x : NodeId}
  {l : List NodeId}

theorem lineage_eq {n : Nat} (h : Lineage s.parent? e l) (hn : l.length ≤ n + 1) :
    s.lineage n e = l := by
  induction n generalizing e l with
  | zero =>
      cases h with
      | root => rfl
      | step _ ht =>
          have hpos := ht.length_pos
          simp only [List.length_cons] at hn
          omega
  | succ n ih =>
      cases h with
      | root hr => simp only [lineage, hr]
      | step hp ht =>
          simp only [lineage, hp]
          rw [ih ht (by simpa using hn)]

theorem isInclusiveAncestor_iff (hl : s.Linked) (h : Lineage s.parent? x l) :
    s.isInclusiveAncestor e x = true ↔ e ∈ l := by
  rw [isInclusiveAncestor, lineage_eq h (hl.lineage_length_le h), List.contains_iff_mem]

structure Moved (s s' : Store) (e : NodeId) : Prop where
  registry : s'.registry = s.registry
  contains (x : NodeId) : s'.contains x = s.contains x
  slotAt (x : NodeId) (j : PropertyId) : s'.slotAt x j = (s.slotAt x j).dropDependent e
  parent {x : NodeId} : x ≠ e → s'.parent? x = s.parent? x

theorem mem_dependents_dropDependent {slot : PropertySlot} :
    d ∈ (slot.dropDependent e).dependents ↔ d ∈ slot.dependents ∧ d ≠ e := by
  simp [PropertySlot.dropDependent]

theorem dropDependent_eq_self {slot : PropertySlot} (h : e ∉ slot.dependents) :
    slot.dropDependent e = slot := by
  have hfilter : slot.dependents.filter (· != e) = slot.dependents := by
    refine List.filter_eq_self.mpr fun d hd => ?_
    simpa using fun hde : d = e => h (hde ▸ hd)
  simp only [PropertySlot.dropDependent, hfilter]

theorem slotAt_detach (hs : s.Listed) : (s.detach e).slotAt x j =
    (s.slotAt x j).dropDependent e := by
  have off (hx : s.parent? e ≠ some x) : (s.slotAt x j).dropDependent e = s.slotAt x j :=
    dropDependent_eq_self fun hd => hx (hs.parent hd)
  unfold detach
  cases hp : s.parent? e with
  | none => exact (off (by simp [hp])).symm
  | some p =>
      rw [slotAt_dropDependent]
      split
      · rfl
      · rename_i hx
        exact (off (by simpa [hp] using hx)).symm

@[simp] theorem parent?_detach : (s.detach e).parent? x = s.parent? x := by
  unfold detach
  cases s.parent? e with
  | none => rfl
  | some p => exact parent?_dropDependent

@[simp] theorem contains_detach : (s.detach e).contains x = s.contains x := by
  unfold detach
  cases s.parent? e with
  | none => rfl
  | some p => exact contains_dropDependent

@[simp] theorem registry_detach : (s.detach e).registry = s.registry := by
  unfold detach
  cases s.parent? e <;> rfl

namespace Moved

theorem of_writeParent (hs : s.Listed) (he : s.contains e = true) (parent : Option NodeId) :
    Moved s ((s.detach e).writeParent e parent) e where
  registry := registry_detach
  contains x := by rw [contains_writeParent, contains_detach]
  slotAt x j := by rw [slotAt_writeParent, slotAt_detach hs]
  parent hx := by
    rw [parent?_writeParent (by simpa using he), parent?_detach, if_neg (Ne.symm hx)]

theorem feeds (h : Moved s s' e) (hd : s.Feeds j x d) (hde : d ≠ e) : s'.Feeds j x d := by
  rw [Feeds, h.slotAt]
  exact mem_dependents_dropDependent.mpr ⟨hd, hde⟩

theorem listed (h : Moved s s' e) (hs : s.Listed) : s'.Listed where
  nodup x j := by
    rw [h.slotAt]
    exact (hs.nodup x j).filter _
  parent hd := by
    rw [h.slotAt] at hd
    obtain ⟨hd, hde⟩ := mem_dependents_dropDependent.mp hd
    exact (h.parent hde).trans (hs.parent hd)

theorem cleared (h : Moved s s' e) (hs : s.Listed) :
    Cleared s (s'.invalidateElement e) fun x j => s'.Below j e x := by
  have hd := invalidateElement_drained (h.listed hs) e
  have same {x : NodeId} {j : PropertyId} (hc : ¬s'.Below j e x) :
      (s'.invalidateElement e).slotAt x j = (s.slotAt x j).dropDependent e :=
    (hd.kept hc).trans (h.slotAt x j)
  have ne {x : NodeId} {j : PropertyId} (hc : ¬s'.Below j e x) : x ≠ e :=
    fun hx => hc (hx ▸ .refl)
  refine ⟨hd.registry.trans h.registry, ?_, ?_, ?_, ?_, ?_, ?_, ?_⟩
  · intro x j hc
    rw [hd.drained hc]
    exact ⟨rfl, rfl⟩
  · intro x j hc
    rw [assigned, same hc]
    rfl
  · intro x j hc
    rw [same hc]
    rfl
  · intro x j hc
    rw [same hc]
    rfl
  · intro x j hc
    exact (hd.parent x).trans (h.parent (ne hc))
  · intro x d j hx hd' hf
    rw [Feeds, same hx]
    exact mem_dependents_dropDependent.mpr ⟨hf, ne hd'⟩
  · intro x d j hx hf
    by_cases hde : d = e
    · exact hde ▸ .refl
    · exact hx.tail (h.feeds hf hde)

theorem linked (h : Moved s s' e) (hs : s.Linked)
    (hp : ∀ p, s'.parent? e = some p →
      s.contains p = true ∧ ∀ l, Lineage s.parent? p l → e ∉ l) : s'.Linked where
  toListed := h.listed hs.toListed
  contains_parent {x p} hx := by
    rw [h.contains]
    by_cases hxe : x = e
    · exact (hp p (hxe ▸ hx)).1
    · exact hs.contains_parent ((h.parent hxe).symm.trans hx)
  rooted := by
    cases hpar : s'.parent? e with
    | none =>
        refine hs.rooted.unlink fun x => ?_
        by_cases hxe : x = e
        · exact .inr (hxe ▸ hpar)
        · exact .inl (h.parent hxe)
    | some p => exact hs.rooted.relink hpar (fun x => h.parent) (hp p hpar).2

end Moved

theorem relink_preserves {parent : Option NodeId} (he : s.contains e = true)
    (hp : s.Linked → ∀ p, parent = some p →
      s.contains p = true ∧ ∀ l, Lineage s.parent? p l → e ∉ l) :
    Preserves s (s.relink e parent) where
  registry hs := ((Moved.of_writeParent hs.toListed he parent).cleared hs.toListed).registry
  linked hs := by
    have moved := Moved.of_writeParent hs.toListed he parent
    have hlinked := moved.linked hs (by
      rw [parent?_writeParent (by simpa using he), if_pos rfl]
      exact hp hs)
    exact (invalidateElement_drained hlinked.toListed e).linked hlinked
  supported _ hs hf :=
    hf.cleared ((Moved.of_writeParent hs.toListed he parent).cleared hs.toListed)

theorem setParent_cases {parent : Option NodeId} (h : s.setParent e parent = .ok s') :
    s.contains e = true ∧
      (∀ p, parent = some p → s.contains p = true ∧ ¬s.isInclusiveAncestor e p = true) ∧
      (s.parent? e = parent ∧ s' = s ∨ s' = s.relink e parent) := by
  unfold setParent at h
  cases he : s.element? e with
  | none => simp [he] at h
  | some element =>
      have known : s.contains e = true := by simp [contains, he]
      have hparent : s.parent? e = element.parent := by simp [parent?, he]
      have moved (heq : (if element.parent = parent then s else s.relink e parent) = s') :
          s.parent? e = parent ∧ s' = s ∨ s' = s.relink e parent := by
        split at heq
        · rename_i hsame
          exact .inl ⟨hparent.trans hsame, heq.symm⟩
        · exact .inr heq.symm
      simp only [he] at h
      cases parent with
      | none => exact ⟨known, fun _ hp => by simp at hp, moved (Except.ok.inj h)⟩
      | some p =>
          simp only at h
          split at h
          · simp at h
          · rename_i hp
            split at h
            · simp at h
            · rename_i hanc
              refine ⟨known, ?_, moved (Except.ok.inj h)⟩
              rintro _ ⟨⟩
              exact ⟨by simpa using hp, hanc⟩

theorem setParent_preserves {parent : Option NodeId} (h : s.setParent e parent = .ok s') :
    Preserves s s' := by
  obtain ⟨known, hp, ⟨-, rfl⟩ | rfl⟩ := setParent_cases h
  · exact .refl _
  · refine relink_preserves known fun hs p hpar => ?_
    obtain ⟨hc, hanc⟩ := hp p hpar
    exact ⟨hc, fun l hl hmem => hanc ((isInclusiveAncestor_iff hs hl).mpr hmem)⟩

theorem add_preserves {parent : Option NodeId} (he : s.contains e = false)
    (hp : ∀ p, parent = some p → s.contains p = true) : Preserves s (s.add e parent) where
  registry _ := rfl
  linked hs := by
    have below {x p : NodeId} (hx : s.parent? x = some p) : e ≠ x := by
      rintro rfl
      simp [parent?_of_not_contains he] at hx
    refine ⟨⟨fun x j => ?_, fun {x d j} hd => ?_⟩, fun {x p} hx => ?_, ?_⟩
    · rw [slotAt_add he]
      exact hs.nodup x j
    · rw [slotAt_add he] at hd
      have hx := hs.parent hd
      rwa [parent?_add, if_neg (below hx)]
    · rw [contains_add, Bool.or_eq_true]
      rw [parent?_add] at hx
      split at hx
      · exact .inr (hp p hx)
      · exact .inr (hs.contains_parent hx)
    · cases hpar : parent with
      | none =>
          refine hs.rooted.unlink fun x => ?_
          rw [parent?_add]
          split
          · exact .inr rfl
          · exact .inl rfl
      | some p =>
          refine hs.rooted.relink (by rw [parent?_add, if_pos rfl])
            (fun x hx => by rw [parent?_add, if_neg (Ne.symm hx)]) fun l hl hmem => ?_
          have hknown := hl.mem_of_closed (P := fun x => s.contains x = true) (hp p hpar)
            (fun x y => hs.contains_parent) e hmem
          simp [he] at hknown
  supported _ hs hf := by
    refine hf.cleared (C := fun x _ => x = e) ⟨rfl, ?_, ?_, ?_, ?_, ?_, ?_, ?_⟩
    · rintro x j rfl
      rw [slotAt_add he, slotAt_of_not_contains he]
      exact ⟨rfl, rfl⟩
    · intro x j _
      rw [assigned, slotAt_add he]
      rfl
    · intro x j _
      rw [slotAt_add he]
    · intro x j _
      rw [slotAt_add he]
    · intro x j hx
      rw [parent?_add, if_neg (Ne.symm hx)]
    · intro x d j _ _ hd
      rwa [Feeds, slotAt_add he]
    · rintro x d j rfl hd
      simp [Feeds, slotAt_of_not_contains he, PropertySlot.empty] at hd

theorem insert_preserves {parent : Option NodeId} (h : s.insert e parent = .ok s') :
    Preserves s s' := by
  unfold insert at h
  split at h
  · exact setParent_preserves h
  · rename_i he
    split at h
    · simp at h
    · rename_i hp
      obtain rfl := Except.ok.inj h
      refine add_preserves (by simpa using he) ?_
      rintro p rfl
      simpa [Option.filter] using hp

theorem orphan_moved (he : s.contains e = true)
    (hd : ∀ x j, e ∉ (s.slotAt x j).dependents) : Moved s (s.writeParent e none) e where
  registry := rfl
  contains _ := contains_writeParent
  slotAt x j := by rw [slotAt_writeParent, dropDependent_eq_self (hd x j)]
  parent hx := by rw [parent?_writeParent he, if_neg (Ne.symm hx)]

structure Orphaned (s s' : Store) (es : List NodeId) : Prop where
  registry : s'.registry = s.registry
  listed : s'.Listed
  contains (x : NodeId) : s'.contains x = s.contains x
  parent (x : NodeId) : s'.parent? x = if x ∈ es then none else s.parent? x
  supported (layouts : Layout → Prop) : s.Supported layouts → s'.Supported layouts

theorem foldl_orphan (es : List NodeId) (hs : s.Listed)
    (hes : ∀ e ∈ es, s.contains e = true ∧ ∀ x j, e ∉ (s.slotAt x j).dependents) :
    Orphaned s (es.foldl orphan s) es := by
  induction es generalizing s with
  | nil => exact ⟨rfl, hs, fun _ => rfl, fun x => by simp, fun _ => id⟩
  | cons e es ih =>
      obtain ⟨he, hd⟩ := hes e List.mem_cons_self
      have moved := orphan_moved he hd
      have drained := invalidateElement_drained (moved.listed hs) e
      have hcontains (x : NodeId) : (s.orphan e).contains x = s.contains x :=
        (drained.contains x).trans (moved.contains x)
      have rest := ih (s := s.orphan e) (drained.listed (moved.listed hs)) (by
        intro e' he'
        obtain ⟨hc, hd'⟩ := hes e' (List.mem_cons_of_mem e he')
        refine ⟨(hcontains e').trans hc, fun x j hmem => hd' x j ?_⟩
        have hmem' := drained.dependents_subset hmem
        rwa [slotAt_writeParent] at hmem')
      refine ⟨rest.registry.trans drained.registry, rest.listed,
        fun x => (rest.contains x).trans (hcontains x), fun x => ?_, ?_⟩
      · rw [List.foldl_cons, rest.parent x]
        have hparent : (s.orphan e).parent? x = if e = x then none else s.parent? x :=
          (drained.parent x).trans (parent?_writeParent he)
        rw [hparent]
        by_cases hx : x ∈ es
        · simp [hx]
        · simp only [hx, ↓reduceIte, List.mem_cons, or_false, eq_comm]
      · intro layouts hf
        exact rest.supported layouts (hf.cleared (moved.cleared hs))

theorem listed_erase (hs : s.Listed) : ((s.detach e).erase e).Listed where
  nodup x j := by
    rw [slotAt_erase, slotAt_detach hs]
    split
    · exact List.nodup_nil
    · exact (hs.nodup x j).filter _
  parent {x d j} hd := by
    rw [slotAt_erase, slotAt_detach hs] at hd
    split at hd
    · simp [PropertySlot.empty] at hd
    · obtain ⟨hd, hde⟩ := mem_dependents_dropDependent.mp hd
      rw [parent?_erase, parent?_detach, if_neg (Ne.symm hde)]
      exact hs.parent hd

theorem erase_cleared (hs : s.Listed) (he : ∀ j, (s.slotAt e j).dependents = []) :
    Cleared s ((s.detach e).erase e) fun x _ => x = e where
  registry := registry_detach
  cleared {x j} hx := by
    rw [slotAt_erase, if_pos hx.symm]
    exact ⟨rfl, rfl⟩
  assigned {x j} hx := by
    rw [assigned, slotAt_erase, if_neg (Ne.symm hx), slotAt_detach hs]
    rfl
  specified {x j} hx := by
    rw [slotAt_erase, if_neg (Ne.symm hx), slotAt_detach hs]
    rfl
  computed {x j} hx := by
    rw [slotAt_erase, if_neg (Ne.symm hx), slotAt_detach hs]
    rfl
  parent {x j} hx := by rw [parent?_erase, if_neg (Ne.symm hx), parent?_detach]
  feeds {x d j} hx hde hd := by
    rw [Feeds, slotAt_erase, if_neg (Ne.symm hx), slotAt_detach hs]
    exact mem_dependents_dropDependent.mpr ⟨hd, hde⟩
  closed {x d j} hx hd := by
    rw [Feeds, hx, he j] at hd
    simp at hd

theorem remove_preserves (h : s.remove e = .ok s') : Preserves s s' := by
  unfold remove at h
  split at h
  · obtain rfl := Except.ok.inj h
    have orphaned (hs : s.Listed) := by
      have drained := invalidateElement_drained hs e
      have listed := listed_erase (e := e) (drained.listed hs)
      refine foldl_orphan ((((s.invalidateElement e).detach e).erase e).childrenOf e) listed ?_
      intro d hd
      have hpar := mem_childrenOf.mp hd
      refine ⟨contains_of_parent? hpar, fun x j hmem => ?_⟩
      -- only the element itself could list its children
      obtain rfl := Option.some.inj (hpar.symm.trans (listed.parent hmem))
      simp [slotAt_erase, PropertySlot.empty] at hmem
    constructor
    · intro hs
      have drained := invalidateElement_drained hs.toListed e
      exact (orphaned hs.toListed).registry.trans (registry_detach.trans drained.registry)
    · intro hs
      have drained := invalidateElement_drained hs.toListed e
      have children := orphaned hs.toListed
      have parent (x : NodeId) : (((s.invalidateElement e).detach e).erase e).parent? x =
          if e = x then none else s.parent? x := by
        rw [parent?_erase, parent?_detach, drained.parent]
      refine ⟨children.listed, fun {x p} hx => ?_, hs.rooted.unlink fun x => ?_⟩
      · rw [children.contains, contains_erase, contains_detach, drained.contains]
        simp only [children.parent, mem_childrenOf] at hx
        split at hx
        · simp at hx
        · rename_i hne
          rw [parent] at hx hne
          split at hx
          · simp at hx
          · rename_i hex
            have hpe : e ≠ p := fun hep => hne (by rw [if_neg hex, hx, hep])
            simp [hpe, hs.contains_parent hx]
      · rw [children.parent, parent]
        split
        · exact .inr rfl
        · split
          · exact .inr rfl
          · exact .inl rfl
    · intro layouts hs hf
      have drained := invalidateElement_drained hs.toListed e
      refine (orphaned hs.toListed).supported layouts ?_
      have kept := hf.cleared (drained.cleared fun hx hd => hx.tail hd)
      refine kept.cleared (erase_cleared (drained.listed hs.toListed) fun j => ?_)
      rw [drained.drained .refl]
      rfl
  · simp at h

end CssStyling.Store
