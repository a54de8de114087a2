import CssStyling.Proofs.Store.Resolving

namespace CssStyling

/-- What reading at an element comes to. Whatever takes a value from the element has the values
above it computed first; `above` is what that comes to. -/
structure Outcomes where
  specified : Except StyleError Value
  computed : Except StyleError Value
  above : Except StyleError Unit

def Outcomes.at (o : Outcomes) : Stage → Except StyleError Value
  | .specified => o.specified
  | .computed => o.computed

namespace Store

variable {s t : Store} {layout : Layout} {p : PropertyDefinition} {id : PropertyId}
  {e x parent : NodeId} {u v : Value} {stage : Stage} {l us vs : List NodeId} {error : StyleError}
  {ofParent ofParent' : Except StyleError Value}

def settle (layout : Layout) (p : PropertyDefinition) (e : NodeId)
    (ofParent : Except StyleError Value) : Value → Except StyleError Value
  | .percentage x =>
      match p.percentage with
      | none => .error (.resolution (.noPercentageBase p.name))
      | some resolver => (resolver layout e x).2.mapError .resolution
  | .dimension x .px => .ok (.px x)
  | .dimension x unit =>
      match layout.unitScale e unit with
      | none => .error (.resolution (.unknownUnit e unit))
      | some scale => .ok (.px (x * scale))
  | .inherit => ofParent
  | value => .ok value

def outcomes (s : Store) (layout : Layout) (p : PropertyDefinition) (id : PropertyId) :
    List NodeId → Outcomes
  | [] => ⟨.ok p.initial, .ok p.initial, .ok ()⟩
  | e :: l =>
      let up := outcomes s layout p id l
      let specified := do
        if (s.assigned e id).isDefaulting then
          if p.inherited then
            up.above
            up.computed
          else .ok p.initial
        else .ok (s.assigned e id)
      let above := do
        if l.head?.any fun parent => (s.assigned parent id).isDefaulting then up.above
        discard up.computed
      ⟨specified, specified >>= settle layout p e up.specified, above⟩

theorem exists_of_bind_eq_ok {ε α β : Type} {x : Except ε α} {f : α → Except ε β} {w : β}
    (h : x >>= f = .ok w) : ∃ v, x = .ok v ∧ f v = .ok w := by
  cases x with
  | error _ => cases h
  | ok v => exact ⟨v, rfl, h⟩

theorem specified_of_assigned (hd : (s.assigned e id).isDefaulting = false) :
    (s.outcomes layout p id (e :: l)).specified = .ok (s.assigned e id) := by
  simp [outcomes, hd]

theorem specified_of_initial (hd : (s.assigned e id).isDefaulting = true)
    (hi : p.inherited = false) :
    (s.outcomes layout p id (e :: l)).specified = .ok p.initial := by
  simp [outcomes, hd, hi]

theorem specified_of_inherited (hd : (s.assigned e id).isDefaulting = true)
    (hi : p.inherited = true) : (s.outcomes layout p id (e :: l)).specified =
      (s.outcomes layout p id l).above >>= fun _ => (s.outcomes layout p id l).computed := by
  simp [outcomes, hd, hi]

theorem computed_cons : (s.outcomes layout p id (e :: l)).computed =
    (s.outcomes layout p id (e :: l)).specified >>=
      settle layout p e (s.outcomes layout p id l).specified :=
  rfl

theorem above_of_pulling (hd : (s.assigned parent id).isDefaulting = true) :
    (s.outcomes layout p id (e :: parent :: l)).above =
      (s.outcomes layout p id (parent :: l)).above >>= fun _ =>
        discard (s.outcomes layout p id (parent :: l)).computed := by
  simp only [outcomes, List.head?_cons, Option.any_some, hd, if_true]

theorem above_of_stopping (hd : (s.assigned parent id).isDefaulting = false) :
    (s.outcomes layout p id (e :: parent :: l)).above =
      discard (s.outcomes layout p id (parent :: l)).computed := by
  simp only [outcomes, List.head?_cons, Option.any_some, hd, Bool.false_eq_true, if_false]

theorem settle_length {y : Float} {unit : LengthUnit} (hn : unit ≠ .px) :
    settle layout p e ofParent (.dimension y unit) =
      match layout.unitScale e unit with
      | none => .error (.resolution (.unknownUnit e unit))
      | some scale => .ok (.px (y * scale)) := by
  cases unit <;> first | rfl | exact absurd rfl hn

theorem settle_plain (hv : v.isPlain = true) : settle layout p e ofParent v = .ok v := by
  cases v <;> first | rfl | simp [Value.isPlain] at hv

theorem settle_congr (hv : v ≠ .inherit) :
    settle layout p e ofParent v = settle layout p e ofParent' v := by
  cases v with
  | inherit => exact absurd rfl hv
  | dimension y unit => cases unit <;> rfl
  | _ => rfl

theorem derives_of_settle (hu : s.Derives layout p id .specified e u)
    (hv : settle layout p e ofParent u = .ok v)
    (inherited : ofParent = .ok v → (∃ parent, s.parent? e = some parent ∧
      s.Derives layout p id .specified parent v) ∨ s.parent? e = none ∧ v = p.initial) :
    s.Derives layout p id .computed e v := by
  cases u with
  | percentage y =>
      simp only [settle] at hv
      split at hv
      · cases hv
      · rename_i resolver hr
        cases hq : (resolver layout e y).2 with
        | error _ => simp [hq, Except.mapError] at hv
        | ok w =>
            obtain rfl : w = v := by simpa [hq, Except.mapError] using hv
            exact .percentage hu hr hq
  | dimension y unit =>
      by_cases hn : unit = .px
      · subst unit
        obtain rfl := Except.ok.inj hv
        exact .px hu
      · rw [settle_length hn] at hv
        cases hscale : layout.unitScale e unit with
        | none => simp [hscale] at hv
        | some scale =>
            obtain rfl : .px (y * scale) = v := by simpa [hscale] using hv
            exact .length hu hn hscale
  | inherit =>
      rcases inherited hv with ⟨parent, hp, hw⟩ | ⟨hp, rfl⟩
      · exact .ofParent hu hp hw
      · exact .atRoot hu hp
  | _ =>
      obtain rfl := Except.ok.inj hv
      exact .plain hu rfl

theorem exists_settle (hv : s.Derives layout p id .computed e v)
    (hu : s.Derives layout p id .specified e u) (hw : ∃ w, ofParent = .ok w) :
    ∃ w, settle layout p e ofParent u = .ok w := by
  cases hv with
  | percentage hs hr hv =>
      obtain rfl := hu.unique hs
      exact ⟨v, by simp [settle, hr, hv, Except.mapError]⟩
  | px hs =>
      obtain rfl := hu.unique hs
      exact ⟨_, rfl⟩
  | length hs hn hscale =>
      obtain rfl := hu.unique hs
      exact ⟨_, by rw [settle_length hn, hscale]⟩
  | ofParent hs | atRoot hs =>
      obtain rfl := hu.unique hs
      exact hw
  | plain hs hplain =>
      obtain rfl := hu.unique hs
      exact ⟨_, settle_plain hplain⟩

theorem derives_specified_cons (above : ∀ v, (s.outcomes layout p id l).computed = .ok v →
      (∃ parent, s.parent? e = some parent ∧ s.Derives layout p id .computed parent v) ∨
        s.parent? e = none ∧ v = p.initial)
    (hu : (s.outcomes layout p id (e :: l)).specified = .ok u) :
    s.Derives layout p id .specified e u := by
  cases hd : (s.assigned e id).isDefaulting with
  | false =>
      rw [specified_of_assigned hd] at hu
      exact Except.ok.inj hu ▸ .assigned hd
  | true =>
      cases hi : p.inherited with
      | false =>
          rw [specified_of_initial hd hi] at hu
          exact Except.ok.inj hu ▸ .initial hd (.inl hi)
      | true =>
          rw [specified_of_inherited hd hi] at hu
          rcases above u (exists_of_bind_eq_ok hu).choose_spec.2 with ⟨parent, hp, hw⟩ | ⟨hp, rfl⟩
          · exact .inherited hd hi hp hw
          · exact .initial hd (.inr hp)

theorem derives_of_outcomes (h : Lineage s.parent? e l)
    (hv : (s.outcomes layout p id l).at stage = .ok v) : s.Derives layout p id stage e v := by
  -- what the head needs of the rest: its values, or the initial value above a root
  have head {e l} (above : ∀ stage v, (s.outcomes layout p id l).at stage = .ok v →
      (∃ parent, s.parent? e = some parent ∧ s.Derives layout p id stage parent v) ∨
        s.parent? e = none ∧ v = p.initial) (stage v)
      (hv : (s.outcomes layout p id (e :: l)).at stage = .ok v) :
      s.Derives layout p id stage e v := by
    cases stage with
    | specified => exact derives_specified_cons (above .computed) hv
    | computed =>
        obtain ⟨u, hu, hset⟩ := exists_of_bind_eq_ok hv
        exact derives_of_settle (derives_specified_cons (above .computed) hu) hset
          (above .specified v)
  induction h generalizing stage v with
  | root hn =>
      refine head (fun stage v hv => .inr ⟨hn, ?_⟩) stage v hv
      cases stage <;> exact (Except.ok.inj hv).symm
  | step hp _ ih => exact head (fun stage v hv => .inl ⟨_, hp, ih hv⟩) stage v hv

theorem exists_outcomes_cons (h : Lineage s.parent? e (e :: l))
    (hv : ∃ v, s.Derives layout p id .computed e v)
    (up : ∃ u v, s.outcomes layout p id l = ⟨.ok u, .ok v, .ok ()⟩) :
    ∃ u v, s.outcomes layout p id (e :: l) = ⟨.ok u, .ok v, .ok ()⟩ := by
  obtain ⟨v, hv⟩ := hv
  obtain ⟨u', v', up⟩ := up
  obtain ⟨u, hu⟩ : ∃ u, (s.outcomes layout p id (e :: l)).specified = .ok u := by
    cases hd : (s.assigned e id).isDefaulting with
    | false => exact ⟨_, specified_of_assigned hd⟩
    | true =>
        cases hi : p.inherited with
        | false => exact ⟨_, specified_of_initial hd hi⟩
        | true => exact ⟨v', by rw [specified_of_inherited hd hi, up]; rfl⟩
  have derived : s.Derives layout p id .specified e u := derives_of_outcomes h hu
  obtain ⟨w, hw⟩ := exists_settle hv derived ⟨u', congrArg Outcomes.specified up⟩
  have hc : (s.outcomes layout p id (e :: l)).computed = .ok w := by
    rw [computed_cons, hu]
    exact hw
  have ha : (s.outcomes layout p id (e :: l)).above = .ok () := by
    simp only [outcomes, up]
    split <;> rfl
  refine ⟨u, w, ?_⟩
  rw [← hu, ← hc, ← ha]

theorem exists_outcomes (h : Lineage s.parent? e l)
    (hv : ∀ y ∈ l, ∃ v, s.Derives layout p id .computed y v) :
    ∃ u v, s.outcomes layout p id l = ⟨.ok u, .ok v, .ok ()⟩ := by
  induction h with
  | root hn => exact exists_outcomes_cons (.root hn) (hv _ (by simp)) ⟨_, _, rfl⟩
  | step hp h ih =>
      exact exists_outcomes_cons (.step hp h) (hv _ (by simp)) (ih fun y hy => hv y (by simp [hy]))

theorem above_of_computed (hd : (s.assigned e id).isDefaulting = true) (hi : p.inherited = true)
    (hv : (s.outcomes layout p id (e :: l)).computed = .ok v) :
    (s.outcomes layout p id (e :: l)).above = .ok () := by
  obtain ⟨u, hu, -⟩ := exists_of_bind_eq_ok (computed_cons.symm.trans hv)
  rw [specified_of_inherited hd hi] at hu
  obtain ⟨_, ha, hc⟩ := exists_of_bind_eq_ok hu
  simp only [outcomes, ha, hc]
  split <;> rfl

theorem exists_of_above_error (h : (s.outcomes layout p id (e :: l)).above = .error error) :
    ∃ m y t, l = m ++ y :: t ∧ (s.outcomes layout p id (y :: t)).computed = .error error := by
  induction l generalizing e with
  | nil => cases h
  | cons parent l ih =>
      have computed (hc : discard (s.outcomes layout p id (parent :: l)).computed = .error error) :
          ∃ m y t, parent :: l = m ++ y :: t ∧
            (s.outcomes layout p id (y :: t)).computed = .error error := by
        refine ⟨[], parent, l, rfl, ?_⟩
        cases hv : (s.outcomes layout p id (parent :: l)).computed with
        | error _ =>
            rw [hv] at hc
            cases hc
            rfl
        | ok v =>
            rw [hv] at hc
            cases hc
      cases hd : (s.assigned parent id).isDefaulting with
      | false => exact computed (above_of_stopping hd ▸ h)
      | true =>
          rw [above_of_pulling hd] at h
          cases ha : (s.outcomes layout p id (parent :: l)).above with
          | ok _ =>
              rw [ha] at h
              exact computed h
          | error _ =>
              rw [ha] at h
              obtain ⟨m, y, t, rfl, hy⟩ := ih (ha.trans h)
              exact ⟨parent :: m, y, t, rfl, hy⟩

theorem outcomes_congr (h : ∀ y ∈ l, s.assigned y id = t.assigned y id) :
    s.outcomes layout p id l = t.outcomes layout p id l := by
  induction l with
  | nil => rfl
  | cons e l ih =>
      have hup := ih fun y hy => h y (by simp [hy])
      have hhead : (l.head?.any fun parent => (s.assigned parent id).isDefaulting) =
          l.head?.any fun parent => (t.assigned parent id).isDefaulting := by
        cases l with
        | nil => rfl
        | cons parent l => simp [h parent (by simp)]
      simp only [outcomes, hup, hhead, h e (by simp)]

theorem contains_of_assigned (h : Lineage s.parent? e (l ++ x :: us))
    (hd : (s.assigned x id).isDefaulting = false) : s.contains e = true := by
  by_contra hn
  have hn : s.contains e = false := by simpa using hn
  -- an element that is not there is a chain of its own
  have alone := h.unique (.root (parent?_of_not_contains hn))
  have hx : x ∈ [e] := alone ▸ List.mem_append_right l List.mem_cons_self
  obtain rfl := List.mem_singleton.mp hx
  simp [Store.assigned, slotAt_of_not_contains hn, PropertySlot.empty, Value.isDefaulting] at hd

def SameUnless {α : Type} (E : StyleError → Prop) (x y : Except StyleError α) : Prop :=
  x = y ∨ ∃ error, E error ∧ x = .error error

theorem SameUnless.bind {α β : Type} {E : StyleError → Prop} {x y : Except StyleError α}
    {f g : α → Except StyleError β} (h : SameUnless E x y) (hfg : ∀ v, SameUnless E (f v) (g v)) :
    SameUnless E (x >>= f) (y >>= g) := by
  rcases h with rfl | ⟨error, he, rfl⟩
  · cases x with
    | error _ => exact .inl rfl
    | ok v => exact hfg v
  · exact .inr ⟨error, he, rfl⟩

theorem SameUnless.discard {α : Type} {E : StyleError → Prop} {x y : Except StyleError α}
    (h : SameUnless E x y) : SameUnless E (discard x) (discard y) := by
  rcases h with rfl | ⟨error, he, rfl⟩
  · exact .inl rfl
  · exact .inr ⟨error, he, rfl⟩

theorem SameUnless.settle {E : StyleError → Prop} (h : SameUnless E ofParent ofParent') (v : Value) :
    SameUnless E (settle layout p e ofParent v) (settle layout p e ofParent' v) := by
  by_cases hv : v = .inherit
  · subst v
    exact h
  · exact .inl (settle_congr hv)

theorem outcomes_cut (hd : (s.assigned x id).isDefaulting = false)
    (hx : s.assigned x id ≠ .inherit) (l : List NodeId) :
    let E error := (s.outcomes layout p id (x :: us)).above = .error error
    let whole := s.outcomes layout p id (l ++ x :: us)
    let cut := s.outcomes layout p id (l ++ [x])
    SameUnless E whole.specified cut.specified ∧ SameUnless E whole.computed cut.computed ∧
      SameUnless E whole.above cut.above := by
  intro E
  induction l with
  | nil =>
      have hs (us) : (s.outcomes layout p id (x :: us)).specified = .ok (s.assigned x id) :=
        specified_of_assigned hd
      refine ⟨.inl ((hs us).trans (hs []).symm), .inl ?_, ?_⟩
      · change (s.outcomes layout p id (x :: us)).computed = (s.outcomes layout p id [x]).computed
        rw [computed_cons, computed_cons, hs, hs]
        exact settle_congr hx
      · change SameUnless E (s.outcomes layout p id (x :: us)).above (.ok ())
        cases ha : (s.outcomes layout p id (x :: us)).above with
        | ok _ => exact .inl rfl
        | error error => exact .inr ⟨error, ha, rfl⟩
  | cons e l ih =>
      obtain ⟨specified, computed, above⟩ := ih
      have hs : SameUnless E (s.outcomes layout p id (e :: (l ++ x :: us))).specified
          (s.outcomes layout p id (e :: (l ++ [x]))).specified := by
        cases hd : (s.assigned e id).isDefaulting with
        | false => exact .inl ((specified_of_assigned hd).trans (specified_of_assigned hd).symm)
        | true =>
            cases hi : p.inherited with
            | false =>
                exact .inl ((specified_of_initial hd hi).trans (specified_of_initial hd hi).symm)
            | true =>
                rw [specified_of_inherited hd hi, specified_of_inherited hd hi]
                exact above.bind fun _ => computed
      refine ⟨hs, hs.bind specified.settle, ?_⟩
      have hhead : (l ++ x :: us).head? = (l ++ [x]).head? := by cases l <;> rfl
      simp only [List.cons_append, outcomes, hhead]
      split
      · exact above.bind fun _ => computed.discard
      · exact computed.discard

end Store

end CssStyling
