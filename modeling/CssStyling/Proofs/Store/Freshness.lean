import CssStyling.Proofs.Store.Forgetting

namespace CssStyling

inductive Stage where
  | specified
  | computed
  deriving DecidableEq, Repr

namespace Value

def isPlain : Value → Bool
  | percentage _ => false
  | dimension _ _ => false
  | inherit => false
  | _ => true

end Value

namespace PropertySlot

def cached (s : PropertySlot) : Stage → Option Value
  | .specified => s.specified
  | .computed => s.computed

end PropertySlot

namespace Store

variable {s s' s'' : Store} {layout : Layout} {p : PropertyDefinition} {id j : PropertyId}
  {e d x parent : NodeId} {u v w : Value} {stage : Stage}

inductive Derives (s : Store) (layout : Layout) (p : PropertyDefinition) (id : PropertyId) :
    Stage → NodeId → Value → Prop where
  | assigned {e : NodeId} : (s.assigned e id).isDefaulting = false →
      Derives s layout p id .specified e (s.assigned e id)
  | inherited {e parent : NodeId} {v : Value} : (s.assigned e id).isDefaulting = true →
      p.inherited = true → s.parent? e = some parent →
      Derives s layout p id .computed parent v → Derives s layout p id .specified e v
  | initial {e : NodeId} : (s.assigned e id).isDefaulting = true →
      p.inherited = false ∨ s.parent? e = none → Derives s layout p id .specified e p.initial
  | percentage {e : NodeId} {x : Float} {v : Value} {resolver : PercentageResolver} :
      Derives s layout p id .specified e (.percentage x) → p.percentage = some resolver →
      (resolver layout e x).2 = .ok v → Derives s layout p id .computed e v
  | px {e : NodeId} {x : Float} : Derives s layout p id .specified e (.dimension x .px) →
      Derives s layout p id .computed e (.dimension x .px)
  | length {e : NodeId} {x scale : Float} {unit : LengthUnit} :
      Derives s layout p id .specified e (.dimension x unit) → unit ≠ .px →
      layout.unitScale e unit = some scale → Derives s layout p id .computed e (.px (x * scale))
  | ofParent {e parent : NodeId} {v : Value} : Derives s layout p id .specified e .inherit →
      s.parent? e = some parent → Derives s layout p id .specified parent v →
      Derives s layout p id .computed e v
  | atRoot {e : NodeId} : Derives s layout p id .specified e .inherit → s.parent? e = none →
      Derives s layout p id .computed e p.initial
  | plain {e : NodeId} {v : Value} : Derives s layout p id .specified e v → v.isPlain = true →
      Derives s layout p id .computed e v

theorem Derives.unique (h : s.Derives layout p id stage e v) (h' : s.Derives layout p id stage e w) :
    v = w := by
  induction h generalizing w with
  | assigned hd =>
      cases h' with
      | assigned => rfl
      | inherited hd' => simp [hd] at hd'
      | initial hd' => simp [hd] at hd'
  | inherited hd hi hp _ ih =>
      cases h' with
      | assigned hd' => simp [hd] at hd'
      | inherited _ _ hp' hv =>
          obtain rfl := Option.some.inj (hp.symm.trans hp')
          exact ih hv
      | initial _ hr => simp [hi, hp] at hr
  | initial hd hr =>
      cases h' with
      | assigned hd' => simp [hd] at hd'
      | inherited _ hi hp => simp [hi, hp] at hr
      | initial => rfl
  | percentage _ hp hv ih =>
      cases h' with
      | percentage hs hp' hv' =>
          obtain rfl := Value.percentage.inj (ih hs)
          obtain rfl := Option.some.inj (hp.symm.trans hp')
          exact Except.ok.inj (hv.symm.trans hv')
      | plain hs hw => simp [← ih hs, Value.isPlain] at hw
      | px hs | length hs | ofParent hs | atRoot hs => simpa using ih hs
  | px _ ih =>
      cases h' with
      | px hs | plain hs => exact ih hs
      | length hs hu =>
          obtain ⟨rfl, rfl⟩ := Value.dimension.inj (ih hs)
          exact absurd rfl hu
      | percentage hs | ofParent hs | atRoot hs => simpa using ih hs
  | length _ hu hscale ih =>
      cases h' with
      | px hs =>
          obtain ⟨rfl, rfl⟩ := Value.dimension.inj (ih hs)
          exact absurd rfl hu
      | length hs _ hscale' =>
          obtain ⟨rfl, rfl⟩ := Value.dimension.inj (ih hs)
          rw [Option.some.inj (hscale.symm.trans hscale')]
      | plain hs hw => simp [← ih hs, Value.isPlain] at hw
      | percentage hs | ofParent hs | atRoot hs => simpa using ih hs
  | ofParent _ hp _ ih ihp =>
      cases h' with
      | ofParent _ hp' hv =>
          obtain rfl := Option.some.inj (hp.symm.trans hp')
          exact ihp hv
      | atRoot _ hp' => simp [hp] at hp'
      | plain hs hw => simp [← ih hs, Value.isPlain] at hw
      | percentage hs | px hs | length hs => simpa using ih hs
  | atRoot _ hp ih =>
      cases h' with
      | ofParent _ hp' => simp [hp] at hp'
      | atRoot => rfl
      | plain hs hw => simp [← ih hs, Value.isPlain] at hw
      | percentage hs | px hs | length hs => simpa using ih hs
  | plain _ hv ih =>
      cases h' with
      | plain hs | px hs => exact ih hs
      | percentage hs | length hs | ofParent hs | atRoot hs => simp [ih hs, Value.isPlain] at hv

theorem Derives.iff_eq (h : s.Derives layout p id stage e v) (w : Value) :
    s.Derives layout p id stage e w ↔ w = v :=
  ⟨fun h' => h'.unique h, fun hw => hw ▸ h⟩

theorem Derives.congr (h : s.Derives layout p id stage e v)
    (ha : ∀ x, s'.assigned x id = s.assigned x id) (hp : ∀ x, s'.parent? x = s.parent? x) :
    s'.Derives layout p id stage e v := by
  induction h with
  | assigned hd => exact ha _ ▸ .assigned ((ha _).symm ▸ hd)
  | inherited hd hi hpar _ ih =>
      exact .inherited ((ha _).symm ▸ hd) hi ((hp _).trans hpar) ih
  | initial hd hr => exact .initial ((ha _).symm ▸ hd) ((hp _).symm ▸ hr)
  | percentage _ hr hv ih => exact .percentage ih hr hv
  | px _ ih => exact .px ih
  | length _ hu hscale ih => exact .length ih hu hscale
  | ofParent _ hpar _ ih ihp => exact .ofParent ih ((hp _).trans hpar) ihp
  | atRoot _ hpar ih => exact .atRoot ih ((hp _).trans hpar)
  | plain _ hv ih => exact .plain ih hv

inductive SpecifiedTied (s : Store) (p : PropertyDefinition) (id : PropertyId) (e : NodeId) :
    Value → Prop where
  | assigned : (s.assigned e id).isDefaulting = false → SpecifiedTied s p id e (s.assigned e id)
  | inherited {parent : NodeId} {v : Value} : (s.assigned e id).isDefaulting = true →
      p.inherited = true → s.parent? e = some parent → s.Feeds id parent e →
      (s.slotAt parent id).computed = some v → SpecifiedTied s p id e v
  | initial : (s.assigned e id).isDefaulting = true →
      p.inherited = false ∨ s.parent? e = none → SpecifiedTied s p id e p.initial

inductive ComputedTied (s : Store) (layout : Layout) (p : PropertyDefinition) (id : PropertyId)
    (e : NodeId) : Value → Value → Prop where
  | percentage {x : Float} {v : Value} {resolver : PercentageResolver} :
      p.percentage = some resolver → (resolver layout e x).2 = .ok v →
      ComputedTied s layout p id e (.percentage x) v
  | px {x : Float} : ComputedTied s layout p id e (.dimension x .px) (.dimension x .px)
  | length {x scale : Float} {unit : LengthUnit} : unit ≠ .px →
      layout.unitScale e unit = some scale →
      ComputedTied s layout p id e (.dimension x unit) (.px (x * scale))
  | ofParent {parent : NodeId} {v : Value} : s.parent? e = some parent → s.Feeds id parent e →
      (s.slotAt parent id).specified = some v → ComputedTied s layout p id e .inherit v
  | atRoot : s.parent? e = none → ComputedTied s layout p id e .inherit p.initial
  | plain {v : Value} : v.isPlain = true → ComputedTied s layout p id e v v

structure Supported (s : Store) (layouts : Layout → Prop) : Prop where
  specified {e : NodeId} {id : PropertyId} {v : Value} : (s.slotAt e id).specified = some v →
    ∃ p, s.registry.get? id = some p ∧ s.SpecifiedTied p id e v
  computed {e : NodeId} {id : PropertyId} {v : Value} : (s.slotAt e id).computed = some v →
    ∃ layout p u, layouts layout ∧ s.registry.get? id = some p ∧
      (s.slotAt e id).specified = some u ∧ s.ComputedTied layout p id e u v

abbrev Fresh (s : Store) (layout : Layout) : Prop :=
  s.Supported (· = layout)

variable {layouts : Layout → Prop}

theorem Supported.of_nothing_kept
    (h : ∀ e id, (s.slotAt e id).specified = none ∧ (s.slotAt e id).computed = none) :
    s.Supported layouts where
  specified hv := by simp [h] at hv
  computed hv := by simp [h] at hv

theorem Supported.exists_definition (h : s.Supported layouts)
    (hv : (s.slotAt e id).cached stage = some v) : ∃ p, s.registry.get? id = some p := by
  cases stage with
  | specified =>
      obtain ⟨p, hp, _⟩ := h.specified hv
      exact ⟨p, hp⟩
  | computed =>
      obtain ⟨_, p, _, _, hp, _⟩ := h.computed hv
      exact ⟨p, hp⟩

theorem SpecifiedTied.derives (h : s.SpecifiedTied p id e v)
    (above : ∀ stage parent v, s.parent? e = some parent →
      (s.slotAt parent id).cached stage = some v → s.Derives layout p id stage parent v) :
    s.Derives layout p id .specified e v := by
  cases h with
  | assigned hd => exact .assigned hd
  | inherited hd hi hp _ hv => exact .inherited hd hi hp (above .computed _ _ hp hv)
  | initial hd hr => exact .initial hd hr

theorem ComputedTied.derives (h : s.ComputedTied layout p id e u v)
    (hu : s.Derives layout p id .specified e u)
    (above : ∀ stage parent v, s.parent? e = some parent →
      (s.slotAt parent id).cached stage = some v → s.Derives layout p id stage parent v) :
    s.Derives layout p id .computed e v := by
  cases h with
  | percentage hr hv => exact .percentage hu hr hv
  | px => exact .px hu
  | length hn hscale => exact .length hu hn hscale
  | ofParent hp _ hv => exact .ofParent hu hp (above .specified _ _ hp hv)
  | atRoot hp => exact .atRoot hu hp
  | plain hv => exact .plain hu hv

theorem Fresh.derives_of_above (h : s.Fresh layout) (hp : s.registry.get? id = some p)
    (above : ∀ stage parent v, s.parent? e = some parent →
      (s.slotAt parent id).cached stage = some v → s.Derives layout p id stage parent v)
    (hv : (s.slotAt e id).cached stage = some v) : s.Derives layout p id stage e v := by
  have spec : ∀ u, (s.slotAt e id).specified = some u → s.Derives layout p id .specified e u := by
    intro u hu
    obtain ⟨q, hq, tied⟩ := h.specified hu
    obtain rfl := Option.some.inj (hp.symm.trans hq)
    exact tied.derives above
  cases stage with
  | specified => exact spec v hv
  | computed =>
      obtain ⟨_, q, u, rfl, hq, hu, tied⟩ := h.computed hv
      obtain rfl := Option.some.inj (hp.symm.trans hq)
      exact tied.derives (spec u hu) above

theorem Fresh.derives (h : s.Fresh layout) (hl : s.Linked) (hp : s.registry.get? id = some p)
    (hv : (s.slotAt e id).cached stage = some v) : s.Derives layout p id stage e v := by
  obtain ⟨l, hlin⟩ := hl.rooted e
  induction hlin generalizing stage v with
  | root hroot =>
      refine h.derives_of_above hp ?_ hv
      intro stage parent v hpar
      simp [hroot] at hpar
  | step hpar _ ih =>
      refine h.derives_of_above hp ?_ hv
      intro stage parent v hpar' hv
      obtain rfl := Option.some.inj (hpar.symm.trans hpar')
      exact ih hv

structure Cleared (s s' : Store) (C : NodeId → PropertyId → Prop) : Prop where
  registry : s'.registry = s.registry
  cleared {x : NodeId} {j : PropertyId} : C x j →
    (s'.slotAt x j).specified = none ∧ (s'.slotAt x j).computed = none
  assigned {x : NodeId} {j : PropertyId} : ¬C x j → s'.assigned x j = s.assigned x j
  specified {x : NodeId} {j : PropertyId} : ¬C x j →
    (s'.slotAt x j).specified = (s.slotAt x j).specified
  computed {x : NodeId} {j : PropertyId} : ¬C x j →
    (s'.slotAt x j).computed = (s.slotAt x j).computed
  parent {x : NodeId} {j : PropertyId} : ¬C x j → s'.parent? x = s.parent? x
  feeds {x d : NodeId} {j : PropertyId} : ¬C x j → ¬C d j → s.Feeds j x d → s'.Feeds j x d
  closed {x d : NodeId} {j : PropertyId} : C x j → s.Feeds j x d → C d j

variable {C : NodeId → PropertyId → Prop}

theorem Drained.cleared (h : Drained s s' C)
    (closed : ∀ {x d : NodeId} {j : PropertyId}, C x j → s.Feeds j x d → C d j) :
    Cleared s s' C where
  registry := h.registry
  cleared hc := by
    rw [h.drained hc]
    exact ⟨rfl, rfl⟩
  assigned _ := h.assigned
  specified hc := by rw [h.kept hc]
  computed hc := by rw [h.kept hc]
  parent _ := h.parent _
  feeds hx _ hd := by rwa [Feeds, h.kept hx]
  closed := closed

theorem SpecifiedTied.cleared (h : Cleared s s' C) (hc : ¬C e id)
    (tied : s.SpecifiedTied p id e v) : s'.SpecifiedTied p id e v := by
  cases tied with
  | assigned hd => exact h.assigned hc ▸ .assigned ((h.assigned hc).symm ▸ hd)
  | inherited hd hi hp hf hv =>
      have hpar : ¬C _ id := fun hc' => hc (h.closed hc' hf)
      exact .inherited ((h.assigned hc).symm ▸ hd) hi ((h.parent hc).trans hp)
        (h.feeds hpar hc hf) ((h.computed hpar).trans hv)
  | initial hd hr => exact .initial ((h.assigned hc).symm ▸ hd) ((h.parent hc).symm ▸ hr)

theorem ComputedTied.cleared (h : Cleared s s' C) (hc : ¬C e id)
    (tied : s.ComputedTied layout p id e u v) : s'.ComputedTied layout p id e u v := by
  cases tied with
  | percentage hr hv => exact .percentage hr hv
  | px => exact .px
  | length hn hscale => exact .length hn hscale
  | ofParent hp hf hv =>
      have hpar : ¬C _ id := fun hc' => hc (h.closed hc' hf)
      exact .ofParent ((h.parent hc).trans hp) (h.feeds hpar hc hf) ((h.specified hpar).trans hv)
  | atRoot hp => exact .atRoot ((h.parent hc).trans hp)
  | plain hv => exact .plain hv

theorem Supported.cleared (h : s.Supported layouts) (hcl : Cleared s s' C) :
    s'.Supported layouts where
  specified {e id v} hv := by
    have hc : ¬C e id := fun hc => by simp [(hcl.cleared hc).1] at hv
    obtain ⟨p, hp, tied⟩ := h.specified ((hcl.specified hc).symm.trans hv)
    exact ⟨p, hcl.registry ▸ hp, tied.cleared hcl hc⟩
  computed {e id v} hv := by
    have hc : ¬C e id := fun hc => by simp [(hcl.cleared hc).2] at hv
    obtain ⟨layout, p, u, hlayout, hp, hu, tied⟩ := h.computed ((hcl.computed hc).symm.trans hv)
    exact ⟨layout, p, u, hlayout, hcl.registry ▸ hp, (hcl.specified hc).trans hu,
      tied.cleared hcl hc⟩

structure Preserves (s s' : Store) : Prop where
  registry : s.Linked → s'.registry = s.registry
  linked : s.Linked → s'.Linked
  supported (layouts : Layout → Prop) : s.Linked → s.Supported layouts → s'.Supported layouts

theorem Preserves.refl (s : Store) : Preserves s s :=
  ⟨fun _ => rfl, id, fun _ _ => id⟩

theorem Preserves.trans (h : Preserves s s') (h' : Preserves s' s'') : Preserves s s'' where
  registry hs := (h'.registry (h.linked hs)).trans (h.registry hs)
  linked hs := h'.linked (h.linked hs)
  supported layouts hs hf := h'.supported layouts (h.linked hs) (h.supported layouts hs hf)

theorem invalidateElement_preserves : Preserves s (s.invalidateElement e) where
  registry hs := (invalidateElement_drained hs.toListed e).registry
  linked hs := (invalidateElement_drained hs.toListed e).linked hs
  supported _ hs hf := hf.cleared ((invalidateElement_drained hs.toListed e).cleared
    fun hx hd => hx.tail hd)

theorem invalidateAll_linked (hs : s.Linked) : s.invalidateAll.Linked where
  nodup := by simp
  parent := by simp
  contains_parent hp := by
    rw [parent?_invalidateAll] at hp
    rw [contains_invalidateAll]
    exact hs.contains_parent hp
  rooted := hs.rooted.congr fun _ => parent?_invalidateAll

theorem invalidateAll_supported : s.invalidateAll.Supported layouts :=
  .of_nothing_kept fun e id => by simp

theorem invalidateAll_preserves : Preserves s s.invalidateAll :=
  ⟨fun _ => rfl, invalidateAll_linked, fun _ _ _ => invalidateAll_supported⟩

end Store

end CssStyling
