import CssStyling.Proofs.Store.Operations
import CssStyling.Proofs.Store.Outcomes
import Mathlib

namespace CssStyling

namespace StyleM

open Store

variable {α β : Type} {layout : Layout} {s t : Store} {a b : Activity} {p : PropertyDefinition}
  {id : PropertyId} {e x y parent : NodeId} {u v : Value} {l us vs : List NodeId} {n : Nat}
  {o : Except StyleError α} {r : PropertyRegistry}

structure Settled (layout : Layout) (s : Store) (p : PropertyDefinition) (id : PropertyId)
    (t : Store) : Prop where
  registry : t.registry = s.registry
  contains (x : NodeId) : t.contains x = s.contains x
  parent (x : NodeId) : t.parent? x = s.parent? x
  assigned (x : NodeId) : t.assigned x id = s.assigned x id
  kept {x : NodeId} {l : List NodeId} {stage : Stage} {v : Value} : Lineage s.parent? x l →
    (t.slotAt x id).cached stage = some v → (s.outcomes layout p id l).at stage = .ok v

theorem Settled.refl (h : ∀ x stage, (s.slotAt x id).cached stage = none) :
    Settled layout s p id s :=
  ⟨rfl, fun _ => rfl, fun _ => rfl, fun _ => rfl, fun _ hv => by simp [h] at hv⟩

theorem Settled.modifySlot {f : PropertySlot → PropertySlot} (h : Settled layout s p id t)
    (he : s.contains e = true) (assigned : ∀ slot, (f slot).assigned = slot.assigned)
    (kept : ∀ {l stage v}, Lineage s.parent? e l →
      (f (t.slotAt e id)).cached stage = some v → (s.outcomes layout p id l).at stage = .ok v) :
    Settled layout s p id (t.modifySlot e id f) where
  registry := h.registry
  contains x := (contains_modifySlot ((h.contains e).trans he)).trans (h.contains x)
  parent x := parent?_modifySlot.trans (h.parent x)
  assigned x := by
    rw [← h.assigned x, Store.assigned, slotAt_modifySlot]
    split
    · rename_i hx
      rw [assigned, hx.1]
      rfl
    · rfl
  kept hlin hv := by
    rcases of_slotAt_modifySlot (P := fun slot => slot.cached _ = some _) hv with
      ⟨rfl, -, hv⟩ | hv
    · exact kept hlin hv
    · exact h.kept hlin hv

theorem Settled.addDependent (h : Settled layout s p id t) (he : s.contains parent = true) :
    Settled layout s p id (t.addDependent parent id e) := by
  refine h.modifySlot he (fun slot => slot.assigned_addDependent e) fun hlin hv => ?_
  rename_i stage v
  cases stage <;> exact h.kept hlin (by simpa [PropertySlot.cached] using hv)

def Follows (layout : Layout) (s : Store) (p : PropertyDefinition) (id : PropertyId)
    (x : StyleM α) (a : Activity) (o : Except StyleError α) : Prop :=
  Ensures x a (fun v b => o = .ok v ∧ Settled layout s p id b.store)
    (fun error _ => o = .error error)

theorem Follows.bind {x : StyleM α} {f : α → StyleM β} {g : α → Except StyleError β}
    (h : Follows layout s p id x a o)
    (hf : ∀ v b, o = .ok v → Settled layout s p id b.store →
      Follows layout s p id (f v) b (g v)) :
    Follows layout s p id (x >>= f) a (o >>= g) := by
  refine ensures_bind (Ensures.mono h ?_ ?_)
  · rintro v b ⟨rfl, hb⟩
    exact hf v b rfl hb
  · rintro error b rfl
    rfl

theorem Follows.result_eq {x : StyleM α} (h : Follows layout s p id x a o) :
    result (x a) = o := by
  unfold Follows Ensures at h
  cases hx : x a <;> rw [hx] at h
  · exact h.1.symm
  · exact h.symm

theorem follows_keepSpecified (h : Settled layout s p id a.store) (he : s.contains e = true)
    (hlin : Lineage s.parent? e l) (hv : (s.outcomes layout p id l).specified = .ok v) :
    Follows layout s p id (keepSpecified e id v) a (s.outcomes layout p id l).specified := by
  refine ensures_bind (ensures_modifyStore (ensures_pure ⟨hv, ?_⟩))
  refine h.modifySlot he (fun _ => rfl) fun {l' stage v'} hlin' hv' => ?_
  cases stage with
  | specified =>
      obtain rfl := hlin.unique hlin'
      exact Option.some.inj hv' ▸ hv
  | computed => exact h.kept hlin' hv'

theorem follows_keepComputed (h : Settled layout s p id a.store) (he : s.contains e = true)
    (hlin : Lineage s.parent? e l) (hv : (s.outcomes layout p id l).computed = .ok v) :
    Follows layout s p id (keepComputed e id v) a (s.outcomes layout p id l).computed := by
  refine ensures_bind (ensures_modifyStore (ensures_pure ⟨hv, ?_⟩))
  refine h.modifySlot he (fun _ => rfl) fun {l' stage v'} hlin' hv' => ?_
  cases stage with
  | specified => exact h.kept hlin' hv'
  | computed =>
      obtain rfl := hlin.unique hlin'
      exact Option.some.inj hv' ▸ hv

theorem Follows.of_eq {x : StyleM α} {o' : Except StyleError α}
    (h : Follows layout s p id x a o) (ho : o = o') : Follows layout s p id x a o' :=
  ho ▸ h

theorem follows_resolvePercentage {z : Float} {ofParent : Except StyleError Value}
    (h : Settled layout s p id a.store) :
    Follows layout s p id (resolvePercentage layout p e z) a
      (settle layout p e ofParent (.percentage z)) := by
  unfold resolvePercentage settle
  cases hr : p.percentage with
  | none => exact ensures_throw rfl
  | some resolver =>
      refine ensures_bind (ensures_ask ?_)
      cases hv : (resolver layout e z).2 with
      | error error => exact ensures_throw (by simp [hv, Except.mapError])
      | ok value => exact ensures_pure ⟨by simp [hv, Except.mapError], h⟩

theorem follows_resolveLength {z : Float} {unit : LengthUnit}
    {ofParent : Except StyleError Value} (h : Settled layout s p id a.store) :
    Follows layout s p id (resolveLength layout e z unit) a
      (settle layout p e ofParent (.dimension z unit)) := by
  by_cases hunit : unit = .px
  · subst unit
    exact ensures_pure ⟨rfl, h⟩
  · rw [resolveLength_of_ne hunit, settle_length hunit]
    refine ensures_bind (ensures_ask ?_)
    cases hscale : layout.unitScale e unit with
    | none => exact ensures_throw rfl
    | some scale => exact ensures_pure ⟨rfl, h⟩

def SpecifiedFollows (layout : Layout) (s : Store) (p : PropertyDefinition) (id : PropertyId)
    (n : Nat) : Prop :=
  ∀ {a : Activity} {e : NodeId} {l : List NodeId}, Settled layout s p id a.store →
    s.contains e = true → Lineage s.parent? e l → 2 * l.length ≤ n + 1 →
    Follows layout s p id (specifiedWithin layout n e id) a (s.outcomes layout p id l).specified

def ComputedFollows (layout : Layout) (s : Store) (p : PropertyDefinition) (id : PropertyId)
    (n : Nat) : Prop :=
  ∀ {a : Activity} {e : NodeId} {l : List NodeId}, Settled layout s p id a.store →
    s.contains e = true → Lineage s.parent? e l → 2 * l.length ≤ n →
    Follows layout s p id (computedWithin layout n e id) a (s.outcomes layout p id l).computed

def AboveFollows (layout : Layout) (s : Store) (p : PropertyDefinition) (id : PropertyId)
    (n : Nat) : Prop :=
  ∀ {a : Activity} {e : NodeId} {l : List NodeId}, Settled layout s p id a.store →
    Lineage s.parent? e l → 2 * l.length ≤ n + 1 →
    Follows layout s p id (resolveAbove layout n e id) a (s.outcomes layout p id l).above

theorem follows_definition {f : PropertyDefinition → StyleM α} (h : Settled layout s p id a.store)
    (hp : s.registry.get? id = some p) (hf : Follows layout s p id (f p) a o) :
    Follows layout s p id (definition id >>= f) a o := by
  rw [← h.registry] at hp
  refine ensures_bind (ensures_definition (fun p' hp' => ?_) fun hn => ?_)
  · obtain rfl := Option.some.inj (hp.symm.trans hp')
    exact hf
  · simp [hn] at hp

theorem specifiedFollows_succ (hl : s.Linked) (hp : s.registry.get? id = some p)
    (computed : ComputedFollows layout s p id n)
    (above : p.inherited = true → AboveFollows layout s p id n) :
    SpecifiedFollows layout s p id (n + 1) := by
  intro a e l ha he hlin hlen
  rw [specifiedWithin]
  refine follows_definition ha hp (ensures_bind (ensures_store ?_))
  cases helement : a.store.element? e with
  | none =>
      have hc := (ha.contains e).trans he
      simp [Store.contains, helement] at hc
  | some element =>
      have hparent : s.parent? e = element.parent := by
        rw [← ha.parent e]
        simp [parent?, helement]
      simp only [slot?_bind_specified, ha.assigned e, ← hparent]
      cases hn : (a.store.slotAt e id).specified with
      | some v =>
          have kept : (a.store.slotAt e id).cached .specified = some v := hn
          exact ensures_pure ⟨ha.kept hlin kept, ha⟩
      | none =>
          obtain ⟨t, rfl⟩ := hlin.eq_cons
          have keep {b : Activity} {v : Value} (hb : Settled layout s p id b.store)
              (hv : (s.outcomes layout p id (e :: t)).specified = .ok v) :=
            follows_keepSpecified hb he hlin hv
          cases hd : (s.assigned e id).isDefaulting with
          | false => exact keep ha (specified_of_assigned hd)
          | true =>
              cases hi : p.inherited with
              | false =>
                  have initial := keep ha (specified_of_initial hd hi)
                  cases s.parent? e <;> exact initial
              | true =>
                  cases hlin with
                  | root hn =>
                      rw [hn]
                      exact keep ha (specified_of_inherited hd hi)
                  | @step _ parent _ hpar ht =>
                      simp only [List.length_cons] at hlen
                      rw [hpar, specified_of_inherited hd hi]
                      refine (above hi ha ht (by omega)).bind fun _ b hab hb => ?_
                      have hcp := hl.contains_parent hpar
                      have work := computed hb hcp ht (by omega)
                      refine ensures_bind (Ensures.mono work ?_ fun _ _ h => h)
                      rintro v c ⟨hv, hc⟩
                      refine ensures_bind (ensures_modifyStore ?_)
                      rw [hv]
                      refine (keep (hc.addDependent hcp) ?_).of_eq ?_
                      · rw [specified_of_inherited hd hi, hab, hv]
                        rfl
                      · rw [specified_of_inherited hd hi, hab, hv]
                        rfl

theorem computedFollows_succ (hl : s.Linked) (hp : s.registry.get? id = some p)
    (specified : SpecifiedFollows layout s p id n) : ComputedFollows layout s p id (n + 1) := by
  intro a e l ha he hlin hlen
  rw [computedWithin]
  refine follows_definition ha hp (ensures_bind (ensures_store ?_))
  simp only [slot?_bind_computed]
  cases hn : (a.store.slotAt e id).computed with
  | some v =>
      have kept : (a.store.slotAt e id).cached .computed = some v := hn
      exact ensures_pure ⟨ha.kept hlin kept, ha⟩
  | none =>
      obtain ⟨t, rfl⟩ := hlin.eq_cons
      rw [computed_cons]
      refine (specified ha he hlin (by omega)).bind fun u b hu hb => ?_
      -- from here on the outcome is that of settling the specified value
      have settled : (s.outcomes layout p id (e :: t)).computed =
          settle layout p e (s.outcomes layout p id t).specified u := by
        rw [computed_cons, hu]
        rfl
      have keep {x : StyleM Value} (hx : Follows layout s p id x b
          (settle layout p e (s.outcomes layout p id t).specified u)) :
          Follows layout s p id (x >>= keepComputed e id) b
            (settle layout p e (s.outcomes layout p id t).specified u) := by
        refine ensures_bind (Ensures.mono hx ?_ fun _ _ h => h)
        rintro v c ⟨hv, hc⟩
        rw [← settled] at hv ⊢
        exact follows_keepComputed hc he hlin hv
      cases u with
      | percentage z => exact keep (follows_resolvePercentage hb)
      | dimension z unit => exact keep (follows_resolveLength hb)
      | inherit =>
          refine ensures_bind (ensures_store ?_)
          rw [hb.parent e]
          cases hlin with
          | root hn =>
              rw [hn]
              exact (follows_keepComputed hb he (.root hn) settled).of_eq settled
          | @step _ parent _ hpar ht =>
              simp only [List.length_cons] at hlen
              rw [hpar]
              have hcp := hl.contains_parent hpar
              refine ensures_bind (Ensures.mono (specified hb hcp ht (by omega)) ?_ fun _ _ h => h)
              rintro v c ⟨hv, hc⟩
              refine ensures_bind (ensures_modifyStore ?_)
              exact (follows_keepComputed (hc.addDependent hcp) he (.step hpar ht)
                (settled.trans hv)).of_eq settled
      | _ => exact (follows_keepComputed hb he hlin settled).of_eq settled

theorem aboveFollows_succ (hl : s.Linked) (hi : p.inherited = true)
    (computed : ComputedFollows layout s p id n) (above : AboveFollows layout s p id n) :
    AboveFollows layout s p id (n + 1) := by
  intro a e l ha hlin hlen
  rw [resolveAbove]
  refine ensures_bind (ensures_store ?_)
  rw [ha.parent e]
  cases hlin with
  | root hn =>
      rw [hn]
      exact ensures_pure ⟨rfl, ha⟩
  | @step _ parent t hpar ht =>
      simp only [List.length_cons] at hlen
      have hcp := hl.contains_parent hpar
      have hd : pulls a.store parent id = (s.assigned parent id).isDefaulting := by
        rw [pulls, ha.assigned]
      simp only [hpar, slot?_bind_computed, ha.contains parent, hcp, Bool.true_and, hd]
      obtain ⟨t, rfl⟩ := ht.eq_cons
      have warm {b : Activity} (hb : Settled layout s p id b.store) :
          Follows layout s p id (do let _ ← computedWithin layout n parent id) b
            (discard (s.outcomes layout p id (parent :: t)).computed) :=
        (computed hb hcp ht (by omega)).bind fun v c _ hc => ensures_pure ⟨rfl, hc⟩
      cases hn : (a.store.slotAt parent id).computed with
      | some v =>
          -- what was kept for the parent has an outcome, and so has everything it needed
          have kept : (a.store.slotAt parent id).cached .computed = some v := hn
          have hv : (s.outcomes layout p id (parent :: t)).computed = .ok v := ha.kept ht kept
          refine ensures_pure ⟨?_, ha⟩
          cases hd : (s.assigned parent id).isDefaulting with
          | false =>
              rw [above_of_stopping hd, hv]
              rfl
          | true =>
              rw [above_of_pulling hd, above_of_computed hd hi hv, hv]
              rfl
      | none =>
          cases hd : (s.assigned parent id).isDefaulting with
          | false =>
              rw [above_of_stopping hd]
              exact warm ha
          | true =>
              rw [above_of_pulling hd]
              exact (above ha ht (by omega)).bind fun _ _ _ hb => warm hb

theorem follows_within (hl : s.Linked) (hp : s.registry.get? id = some p) (n : Nat) :
    SpecifiedFollows layout s p id n ∧ ComputedFollows layout s p id n ∧
      (p.inherited = true → AboveFollows layout s p id n) := by
  induction n with
  | zero =>
      refine ⟨?_, ?_, fun _ => ?_⟩
      all_goals
        intro a e l
        intros
        rename_i hlin hlen
        have hpos := hlin.length_pos
        omega
  | succ n ih =>
      obtain ⟨specified, computed, above⟩ := ih
      exact ⟨specifiedFollows_succ hl hp computed above, computedFollows_succ hl hp specified,
        fun hi => aboveFollows_succ hl hi computed (above hi)⟩

theorem result_computedById (hl : a.store.Linked) (hp : a.store.registry.get? id = some p)
    (hn : ∀ y stage, (a.store.slotAt y id).cached stage = none) (he : a.store.contains e = true)
    (hlin : Lineage a.store.parent? e l) :
    result (computedById layout e id a) = (a.store.outcomes layout p id l).computed := by
  have hlen := hl.lineage_length_le hlin
  have work : Follows layout a.store p id (computedById layout e id) a _ :=
    (follows_within hl hp _).2.1 (.refl hn) he hlin
      (by omega : 2 * l.length ≤ 2 * a.store.size + 2)
  exact work.result_eq

theorem result_computed {name : String} (hid : a.store.registry.id? name = some id) :
    result (computed layout e name a) = result (computedById layout e id a) := by
  have hname : propertyId name a = .ok id a := by
    simp only [propertyId, store, bind, EStateM.bind, get, getThe, MonadStateOf.get, EStateM.get,
      pure, EStateM.pure, hid]
  simp only [computed, bind, EStateM.bind, hname]

end StyleM

namespace StyleOperation

open StyleM

variable {r : PropertyRegistry} {os os' : List StyleOperation} {layout : Layout}
  {p : PropertyDefinition} {name : String} {id : PropertyId} {e x : NodeId}
  {l us vs : List NodeId}

theorem result_read (hid : r.id? name = some id) (hp : r.get? id = some p)
    (hn : ∀ y stage, ((run r os).store.slotAt y id).cached stage = none)
    (he : (run r os).store.contains e = true) (hlin : Lineage (run r os).store.parent? e l) :
    result (computed layout e name (run r os)) =
      ((run r os).store.outcomes layout p id l).computed := by
  have sound := run_sound r os
  rw [← sound.registry] at hid hp
  rw [result_computed hid]
  exact result_computedById sound.linked hp hn he hlin

theorem result_cut (hid : r.id? name = some id) (hp : r.get? id = some p)
    (hn : ∀ y stage, ((run r os).store.slotAt y id).cached stage = none)
    (hlin : Lineage (run r os).store.parent? e (l ++ x :: us))
    (hd : ((run r os).store.assigned x id).isDefaulting = false)
    (hx : (run r os).store.assigned x id ≠ .inherit) :
    result (computed layout e name (run r os)) =
        ((run r os).store.outcomes layout p id (l ++ [x])).computed ∨
      ∃ error, result (computed layout e name (run r os)) = .error error ∧
        ∃ y ∈ us, result (computed layout y name (run r os)) = .error error := by
  have he := Store.contains_of_assigned hlin hd
  have known : ∀ y ∈ l ++ x :: us, (run r os).store.contains y = true :=
    hlin.mem_of_closed he fun _ _ => (run_sound r os).linked.contains_parent
  rw [result_read hid hp hn he hlin]
  rcases (Store.outcomes_cut hd hx l).2.1 with same | ⟨error, habove, hc⟩
  · exact .inl same
  · obtain ⟨m, y, t, rfl, hy⟩ := Store.exists_of_above_error habove
    refine .inr ⟨error, hc, y, by simp, ?_⟩
    have hliny : Lineage (run r os).store.parent? y (y :: t) := by
      rw [← List.cons_append, ← List.append_assoc] at hlin
      exact hlin.of_append
    rw [result_read hid hp hn (known y (by simp)) hliny, hy]

theorem computed_agree (hid : r.id? name = some id) (hp : r.get? id = some p)
    (hn : ∀ y stage, ((run r os).store.slotAt y id).cached stage = none)
    (hn' : ∀ y stage, ((run r os').store.slotAt y id).cached stage = none)
    (hlin : Lineage (run r os).store.parent? e (l ++ x :: us))
    (hlin' : Lineage (run r os').store.parent? e (l ++ x :: vs))
    (agree : ∀ y ∈ l ++ [x], (run r os).store.assigned y id = (run r os').store.assigned y id)
    (hd : ((run r os).store.assigned x id).isDefaulting = false)
    (hx : (run r os).store.assigned x id ≠ .inherit) :
    (result (computed layout e name (run r os)) = result (computed layout e name (run r os')) ∨
      (∃ error, result (computed layout e name (run r os)) = .error error ∧
        ∃ y ∈ us, result (computed layout y name (run r os)) = .error error) ∨
      ∃ error, result (computed layout e name (run r os')) = .error error ∧
        ∃ y ∈ vs, result (computed layout y name (run r os')) = .error error) ∧
    ∀ error, result (computed layout e name (run r os)) = .error error →
      ∃ y ∈ l ++ x :: us, ∀ v, ¬(run r os).store.Derives layout p id .computed y v := by
  constructor
  · have cut : ((run r os).store.outcomes layout p id (l ++ [x])).computed =
        ((run r os').store.outcomes layout p id (l ++ [x])).computed := by
      rw [Store.outcomes_congr agree]
    have hxx := agree x (by simp)
    rcases result_cut hid hp hn hlin hd hx with first | blamed
    · rcases result_cut hid hp hn' hlin' (hxx ▸ hd) (hxx ▸ hx) with second | blamed
      · exact .inl (first.trans (cut.trans second.symm))
      · exact .inr (.inr blamed)
    · exact .inr (.inl blamed)
  · intro error herror
    by_contra hall
    push Not at hall
    rw [result_read hid hp hn (Store.contains_of_assigned hlin hd) hlin] at herror
    obtain ⟨u, v, hv⟩ := Store.exists_outcomes hlin hall
    simp [hv] at herror

def lineHeight : PropertyDefinition :=
  ⟨"line-height", .keyword "normal", true, .ofList [.keyword, .dimension], .empty, none, none, 0⟩

def leading : PropertyRegistry :=
  ⟨#[lineHeight], by decide⟩

def chain (above : List Value) : List StyleOperation :=
  [insert ⟨0, 1⟩ none, insert ⟨1, 1⟩ (some ⟨0, 1⟩), insert ⟨2, 1⟩ (some ⟨1, 1⟩),
    assign ⟨1, 1⟩ "line-height" (.keyword "tight") none] ++
    above.map (assign ⟨0, 1⟩ "line-height" · none) ++ [invalidateAll]

theorem cached_chain (above : List Value) (y : NodeId) (stage : Stage) :
    ((run leading (chain above)).store.slotAt y 0).cached stage = none := by
  rw [run, chain, List.foldl_append]
  change ((Store.invalidateAll _).slotAt y 0).cached stage = none
  rw [Store.slotAt_invalidateAll]
  cases stage <;> rfl

theorem computed_under_loose :
    result (computed noLayout ⟨2, 1⟩ "line-height" (run leading (chain [.keyword "loose"]))) =
        .ok (.keyword "tight") ∧
      result (computed noLayout ⟨2, 1⟩ "line-height" (run leading (chain [.keyword "loose"]))) =
        result (computed noLayout ⟨2, 1⟩ "line-height" (run leading (chain []))) := by
  have answer : result (computed noLayout ⟨2, 1⟩ "line-height"
      (run leading (chain [.keyword "loose"]))) = .ok (.keyword "tight") := by cbv
  have root : result (computed noLayout ⟨0, 1⟩ "line-height" (run leading (chain []))) =
      .ok (.keyword "normal") := by cbv
  have named : leading.id? "line-height" = some 0 := by cbv
  have defined : leading.get? 0 = some lineHeight := by rfl
  have first : Lineage (run leading (chain [.keyword "loose"])).store.parent? ⟨2, 1⟩
      ([⟨2, 1⟩] ++ ⟨1, 1⟩ :: [⟨0, 1⟩]) :=
    .step (by cbv) (.step (by cbv) (.root (by cbv)))
  have second : Lineage (run leading (chain [])).store.parent? ⟨2, 1⟩
      ([⟨2, 1⟩] ++ ⟨1, 1⟩ :: [⟨0, 1⟩]) :=
    .step (by cbv) (.step (by cbv) (.root (by cbv)))
  have own : (run leading (chain [.keyword "loose"])).store.assigned ⟨1, 1⟩ 0 =
      .keyword "tight" := by cbv
  have agree : ∀ y ∈ ([⟨2, 1⟩] : List NodeId) ++ [⟨1, 1⟩],
      (run leading (chain [.keyword "loose"])).store.assigned y 0 =
        (run leading (chain [])).store.assigned y 0 := by
    intro y hy
    simp only [List.cons_append, List.nil_append, List.mem_cons, List.not_mem_nil, or_false] at hy
    rcases hy with rfl | rfl
    · cbv
    · cbv
  refine ⟨answer, ?_⟩
  rcases (computed_agree named defined (cached_chain _) (cached_chain _) first second agree
    (by rw [own]; rfl) (by simp [own])).1 with same | ⟨error, herror, -⟩ | ⟨error, -, y, hy, herror⟩
  · exact same
  · cases answer.symm.trans herror
  · obtain rfl := List.mem_singleton.mp hy
    cases root.symm.trans herror

/-- The parent of the one that is read has a value of its own, and still the root is computed. -/
theorem computed_blocked :
    (∀ y ∈ ([⟨2, 1⟩, ⟨1, 1⟩] : List NodeId),
      (run leading (chain [.dimension 5 (.other "foo")])).store.assigned y 0 =
        (run leading (chain [])).store.assigned y 0) ∧
    result (computed noLayout ⟨2, 1⟩ "line-height" (run leading (chain []))) =
      .ok (.keyword "tight") ∧
    result (computed noLayout ⟨2, 1⟩ "line-height"
        (run leading (chain [.dimension 5 (.other "foo")]))) =
      .error (.resolution (.unknownUnit ⟨0, 1⟩ (.other "foo"))) ∧
    (run leading (chain [.dimension 5 (.other "foo")])).store.Derives noLayout lineHeight 0
      .computed ⟨2, 1⟩ (.keyword "tight") := by
  have own : (run leading (chain [.dimension 5 (.other "foo")])).store.assigned ⟨1, 1⟩ 0 =
      .keyword "tight" := by cbv
  have middle : (run leading (chain [.dimension 5 (.other "foo")])).store.Derives noLayout
      lineHeight 0 .specified ⟨1, 1⟩ (.keyword "tight") :=
    own ▸ .assigned (by rw [own]; rfl)
  refine ⟨?_, by cbv, by cbv, ?_⟩
  · intro y hy
    simp only [List.mem_cons, List.not_mem_nil, or_false] at hy
    rcases hy with rfl | rfl
    · cbv
    · cbv
  · exact .plain (.inherited (by cbv) rfl (by cbv) (.plain middle rfl)) rfl

end StyleOperation

end CssStyling
