import CssStyling.Proofs.Store.Freshness
import CssStyling.Proofs.Store.Programs
import CssStyling.Store.Resolution

namespace CssStyling

namespace Store

variable {layout : Layout} {layouts : Layout → Prop} {s s' s'' t : Store}
  {p : PropertyDefinition} {id j : PropertyId} {e d x parent : NodeId} {u v w : Value}
  {stage : Stage} {l l' : List NodeId}

structure Grown (s s' : Store) : Prop where
  registry : s'.registry = s.registry
  contains (x : NodeId) : s'.contains x = s.contains x
  parent (x : NodeId) : s'.parent? x = s.parent? x
  assigned (x : NodeId) (j : PropertyId) : s'.assigned x j = s.assigned x j
  provenance (x : NodeId) (j : PropertyId) :
    (s'.slotAt x j).provenance = (s.slotAt x j).provenance
  cached {x : NodeId} {j : PropertyId} {stage : Stage} {v : Value} :
    (s.slotAt x j).cached stage = some v → (s'.slotAt x j).cached stage = some v
  feeds {x d : NodeId} {j : PropertyId} : s.Feeds j x d → s'.Feeds j x d

namespace Grown

theorem specified (h : Grown s s') (hv : (s.slotAt x j).specified = some v) :
    (s'.slotAt x j).specified = some v := by
  have hkept : (s.slotAt x j).cached .specified = some v := hv
  exact h.cached hkept

theorem computed (h : Grown s s') (hv : (s.slotAt x j).computed = some v) :
    (s'.slotAt x j).computed = some v := by
  have hkept : (s.slotAt x j).cached .computed = some v := hv
  exact h.cached hkept

theorem refl (s : Store) : Grown s s :=
  ⟨rfl, fun _ => rfl, fun _ => rfl, fun _ _ => rfl, fun _ _ => rfl, id, id⟩

theorem trans (h : Grown s s') (h' : Grown s' s'') : Grown s s'' where
  registry := h'.registry.trans h.registry
  contains x := (h'.contains x).trans (h.contains x)
  parent x := (h'.parent x).trans (h.parent x)
  assigned x j := (h'.assigned x j).trans (h.assigned x j)
  provenance x j := (h'.provenance x j).trans (h.provenance x j)
  cached hv := h'.cached (h.cached hv)
  feeds hd := h'.feeds (h.feeds hd)

theorem modifySlot {f : PropertySlot → PropertySlot} (he : s.contains e = true)
    (assigned : (f (s.slotAt e id)).assigned = (s.slotAt e id).assigned)
    (provenance : (f (s.slotAt e id)).provenance = (s.slotAt e id).provenance)
    (cached : ∀ stage v, (s.slotAt e id).cached stage = some v →
      (f (s.slotAt e id)).cached stage = some v)
    (dependents : ∀ d ∈ (s.slotAt e id).dependents, d ∈ (f (s.slotAt e id)).dependents) :
    Grown s (s.modifySlot e id f) where
  registry := rfl
  contains _ := contains_modifySlot he
  parent _ := parent?_modifySlot
  assigned x j := by
    rw [Store.assigned, slotAt_modifySlot]
    split
    · rename_i hx
      rw [assigned, hx.1, hx.2]
      rfl
    · rfl
  provenance x j := by
    rw [slotAt_modifySlot]
    split
    · rename_i hx
      rw [provenance, hx.1, hx.2]
    · rfl
  cached {x j stage v} hv := by
    rw [slotAt_modifySlot]
    split
    · rename_i hx
      exact cached stage v (hx.1 ▸ hx.2 ▸ hv)
    · exact hv
  feeds {x d j} hd := by
    rw [Feeds, slotAt_modifySlot]
    split
    · rename_i hx
      exact dependents d (hx.1 ▸ hx.2 ▸ hd)
    · exact hd

end Grown

theorem SpecifiedTied.grown (h : Grown s s') (tied : s.SpecifiedTied p id e v) :
    s'.SpecifiedTied p id e v := by
  cases tied with
  | assigned hd => exact h.assigned e id ▸ .assigned ((h.assigned e id).symm ▸ hd)
  | inherited hd hi hp hf hv =>
      exact .inherited ((h.assigned e id).symm ▸ hd) hi ((h.parent e).trans hp) (h.feeds hf)
        (h.computed hv)
  | initial hd hr => exact .initial ((h.assigned e id).symm ▸ hd) ((h.parent e).symm ▸ hr)

theorem ComputedTied.grown (h : Grown s s') (tied : s.ComputedTied layout p id e u v) :
    s'.ComputedTied layout p id e u v := by
  cases tied with
  | percentage hr hv => exact .percentage hr hv
  | px => exact .px
  | length hn hscale => exact .length hn hscale
  | ofParent hp hf hv =>
      exact .ofParent ((h.parent e).trans hp) (h.feeds hf) (h.specified hv)
  | atRoot hp => exact .atRoot ((h.parent e).trans hp)
  | plain hv => exact .plain hv

theorem Supported.grown (h : s.Supported layouts) (hlayout : layouts layout) (hg : Grown s s')
    (specified : ∀ x j v, (s'.slotAt x j).specified = some v →
      (s.slotAt x j).specified = some v ∨
        ∃ p, s.registry.get? j = some p ∧ s.SpecifiedTied p j x v)
    (computed : ∀ x j v, (s'.slotAt x j).computed = some v →
      (s.slotAt x j).computed = some v ∨
        ∃ p u, s.registry.get? j = some p ∧ (s.slotAt x j).specified = some u ∧
          s.ComputedTied layout p j x u v) : s'.Supported layouts where
  specified {x j v} hv := by
    rcases specified x j v hv with hv | ⟨p, hp, tied⟩
    · obtain ⟨p, hp, tied⟩ := h.specified hv
      exact ⟨p, hg.registry ▸ hp, tied.grown hg⟩
    · exact ⟨p, hg.registry ▸ hp, tied.grown hg⟩
  computed {x j v} hv := by
    rcases computed x j v hv with hv | ⟨p, u, hp, hu, tied⟩
    · obtain ⟨layout, p, u, hlayout, hp, hu, tied⟩ := h.computed hv
      exact ⟨layout, p, u, hlayout, hg.registry ▸ hp, hg.specified hu, tied.grown hg⟩
    · exact ⟨layout, p, u, hlayout, hg.registry ▸ hp, hg.specified hu, tied.grown hg⟩

inductive ReadStep (layout : Layout) (s : Store) : Store → Prop where
  | depend {e parent : NodeId} {id : PropertyId} : s.parent? e = some parent →
      s.contains parent = true → ReadStep layout s (s.addDependent parent id e)
  | specified {e : NodeId} {id : PropertyId} {p : PropertyDefinition} {v : Value} :
      s.contains e = true → s.registry.get? id = some p →
      (s.slotAt e id).specified = none → s.SpecifiedTied p id e v →
      ReadStep layout s (s.modifySlot e id fun slot => { slot with specified := some v })
  | computed {e : NodeId} {id : PropertyId} {p : PropertyDefinition} {u v : Value} :
      s.contains e = true → s.registry.get? id = some p →
      (s.slotAt e id).computed = none → (s.slotAt e id).specified = some u →
      s.ComputedTied layout p id e u v →
      ReadStep layout s (s.modifySlot e id fun slot => { slot with computed := some v })

def Reads (layout : Layout) : Store → Store → Prop :=
  Relation.ReflTransGen (ReadStep layout)

theorem ReadStep.grown (h : ReadStep layout s s') : Grown s s' := by
  cases h with
  | depend _ hc =>
      refine .modifySlot hc (by simp) (by simp) ?_ ?_
      · intro stage v hv
        cases stage <;> simpa [PropertySlot.cached] using hv
      · exact fun d hd => PropertySlot.mem_dependents_addDependent.mpr (.inl hd)
  | specified hc _ hn _ =>
      refine .modifySlot hc rfl rfl ?_ fun _ hd => hd
      intro stage v hv
      cases stage with
      | specified => simp [PropertySlot.cached, hn] at hv
      | computed => exact hv
  | computed hc _ hn _ _ =>
      refine .modifySlot hc rfl rfl ?_ fun _ hd => hd
      intro stage v hv
      cases stage with
      | specified => exact hv
      | computed => simp [PropertySlot.cached, hn] at hv

theorem ReadStep.linked (h : ReadStep layout s s') (hl : s.Linked) : s'.Linked := by
  cases h with
  | depend hp hc =>
      refine hl.modifySlot hc (PropertySlot.nodup_addDependent (hl.nodup _ _)) ?_
      intro d hd
      rcases PropertySlot.mem_dependents_addDependent.mp hd with hd | rfl
      · exact hl.parent hd
      · exact hp
  | specified hc | computed hc => exact hl.modifySlot hc (hl.nodup _ _) fun _ => hl.parent

theorem ReadStep.supported (h : ReadStep layout s s') (hlayout : layouts layout)
    (hf : s.Supported layouts) : s'.Supported layouts := by
  have hg := h.grown
  cases h with
  | depend =>
      refine hf.grown hlayout hg (fun x j v hv => .inl ?_) fun x j v hv => .inl ?_
      · rwa [specified_slotAt_addDependent] at hv
      · rwa [computed_slotAt_addDependent] at hv
  | @specified e id p v hc hp _ tied =>
      refine hf.grown hlayout hg ?_ ?_
      · intro x j w hw
        rcases of_slotAt_modifySlot (P := fun slot => slot.specified = some w) hw with
          ⟨rfl, rfl, hv⟩ | hw
        · obtain rfl := Option.some.inj hv
          exact .inr ⟨p, hp, tied⟩
        · exact .inl hw
      · intro x j w hw
        rcases of_slotAt_modifySlot (P := fun slot => slot.computed = some w) hw with
          ⟨rfl, rfl, hv⟩ | hv
        all_goals exact .inl hv
  | @computed e id p u v hc hp _ hu tied =>
      refine hf.grown hlayout hg ?_ ?_
      · intro x j w hw
        rcases of_slotAt_modifySlot (P := fun slot => slot.specified = some w) hw with
          ⟨rfl, rfl, hv⟩ | hv
        all_goals exact .inl hv
      · intro x j w hw
        rcases of_slotAt_modifySlot (P := fun slot => slot.computed = some w) hw with
          ⟨rfl, rfl, hv⟩ | hw
        · obtain rfl := Option.some.inj hv
          exact .inr ⟨p, u, hp, hu, tied⟩
        · exact .inl hw

theorem Reads.grown (h : Reads layout s s') : Grown s s' := by
  induction h with
  | refl => exact .refl _
  | tail _ h ih => exact ih.trans h.grown

theorem Reads.linked (h : Reads layout s s') (hl : s.Linked) : s'.Linked := by
  induction h with
  | refl => exact hl
  | tail _ h ih => exact h.linked ih

theorem Reads.supported (h : Reads layout s s') (hlayout : layouts layout)
    (hf : s.Supported layouts) : s'.Supported layouts := by
  induction h with
  | refl => exact hf
  | tail _ h ih => exact h.supported hlayout ih

theorem Reads.fresh (h : Reads layout s s') (hf : s.Fresh layout) : s'.Fresh layout :=
  h.supported rfl hf

structure ReadsOn (layout : Layout) (s t : Store) (l : List NodeId) (t' : Store) : Prop where
  reads : Reads layout s t'
  outside {x : NodeId} (hx : x ∉ l) (j : PropertyId) : t'.slotAt x j = t.slotAt x j

theorem ReadsOn.refl (h : Reads layout s t) : ReadsOn layout s t l t :=
  ⟨h, fun _ _ => rfl⟩

theorem ReadsOn.trans (h : ReadsOn layout s t l s') (h' : ReadsOn layout s s' l' s'')
    (hl : l ⊆ l') : ReadsOn layout s t l' s'' where
  reads := h'.reads
  outside hx j := (h'.outside hx j).trans (h.outside (fun hx' => hx (hl hx')) j)

theorem ReadsOn.mono (h : ReadsOn layout s t l s') (hl : l ⊆ l') : ReadsOn layout s t l' s' :=
  ⟨h.reads, fun hx => h.outside fun hx' => hx (hl hx')⟩

theorem ReadsOn.step {f : PropertySlot → PropertySlot} (h : ReadsOn layout s t l s')
    (he : e ∈ l) (hs : ReadStep layout s' (s'.modifySlot e id f)) :
    ReadsOn layout s t l (s'.modifySlot e id f) where
  reads := h.reads.tail hs
  outside hx j := by
    rw [slotAt_modifySlot_of_ne, h.outside hx j]
    rintro ⟨rfl, -⟩
    exact hx he

theorem ReadsOn.depend (h : ReadsOn layout s t l s') (hl : s.Linked)
    (hp : s.parent? e = some parent) (hmem : parent ∈ l) (id : PropertyId) :
    ReadsOn layout s t l (s'.addDependent parent id e) := by
  have hg := h.reads.grown
  exact h.step hmem (.depend ((hg.parent e).trans hp)
    ((hg.contains parent).trans (hl.contains_parent hp)))

end Store

end CssStyling
