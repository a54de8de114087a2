import CssStyling.Cascade
import CssStyling.Proofs.Store.Programs

namespace CssStyling.StyleM

variable {α β : Type} {R : Activity → Nat → Activity → Prop} {x y : StyleM Nat} {u : StyleM α}
  {f : α → StyleM β} {a : Activity} {e : NodeId} {es : List NodeId} {c : MatchingContext}
  {d : Document} {rules : List Rule} {top : NodeId}

def Counts (R : Activity → Nat → Activity → Prop) (x : StyleM Nat) : Prop :=
  ∀ a, Ensures x a (R a) fun _ b => ∃ n, R a n b

def Uncounted (R : Activity → Nat → Activity → Prop) (u : StyleM α) : Prop :=
  ∀ a, Ensures u a (fun _ => R a 0) fun _ => R a 0

structure Tallies (R : Activity → Nat → Activity → Prop) : Prop where
  refl (a : Activity) : R a 0 a
  trans {a b c : Activity} {m n : Nat} : R a m b → R b n c → R a (m + n) c

structure CountsWrites (R : Activity → Nat → Activity → Prop) (e : NodeId) : Prop where
  reset (a : Activity) (name : String) :
    Ensures (reset e name) a (fun changed => R a changed.toNat) fun _ => R a 0
  overwrite (a : Activity) (name : String) (source : PropertySlot) :
    Ensures (overwrite e name source) a (fun changed => R a changed.toNat) fun _ => R a 0

def Admits (R : Activity → Nat → Activity → Prop) (es : List NodeId) : Prop :=
  ∀ a, ∀ e ∈ es, ∀ parent s, a.store.insert e parent = .ok s → R a 0 { a with store := s }

namespace Tallies

theorem pure_zero (h : Tallies R) : Counts R (pure 0) :=
  fun a => ensures_pure (h.refl a)

theorem add (h : Tallies R) (hx : Counts R x) (hy : Counts R y) :
    Counts R (x >>= fun n => y >>= fun m => pure (n + m)) := by
  intro a
  refine ensures_bind ((hx a).mono ?_ fun _ _ hb => hb)
  intro n b hb
  refine ensures_bind ((hy b).mono ?_ ?_)
  · exact fun m c hc => ensures_pure (h.trans hb hc)
  · rintro _ c ⟨m, hc⟩
    exact ⟨n + m, h.trans hb hc⟩

theorem after (h : Tallies R) (hu : Uncounted R u) (hx : Counts R x) :
    Counts R (u >>= fun _ => x) := by
  intro a
  have started {b c : Activity} {n : Nat} (hb : R a 0 b) (hc : R b n c) : R a n c :=
    n.zero_add ▸ h.trans hb hc
  refine ensures_bind ((hu a).mono ?_ fun _ b hb => ⟨0, hb⟩)
  intro _ b hb
  refine (hx b).mono ?_ ?_
  · exact fun n c hc => started hb hc
  · rintro _ c ⟨n, hc⟩
    exact ⟨n, started hb hc⟩

theorem uncounted_pure (h : Tallies R) (v : α) : Uncounted R (pure v : StyleM α) :=
  fun a => ensures_pure (h.refl a)

theorem uncounted_throw (h : Tallies R) (error : StyleError) :
    Uncounted R (throw error : StyleM α) :=
  fun a => ensures_throw (h.refl a)

theorem uncounted_store (h : Tallies R) : Uncounted R store :=
  fun a => ensures_store (h.refl a)

theorem uncounted_bind (h : Tallies R) (hu : Uncounted R u) (hf : ∀ v, Uncounted R (f v)) :
    Uncounted R (u >>= f) := by
  intro a
  refine ensures_bind ((hu a).mono ?_ fun _ _ hb => hb)
  intro v b hb
  exact (hf v b).mono (fun _ _ hc => h.trans hb hc) fun _ _ hc => h.trans hb hc

theorem countChange {w : StyleM Bool}
    (hw : ∀ a, Ensures w a (fun changed => R a changed.toNat) fun _ => R a 0) :
    Counts R (countChange w) := by
  intro a
  refine ensures_bind ((hw a).mono ?_ fun _ b hb => ⟨0, hb⟩)
  intro changed b hb
  cases changed <;> exact ensures_pure hb

theorem resetAll (h : Tallies R) (hw : CountsWrites R e) (ids : List PropertyId) :
    Counts R (resetAll e ids) := by
  induction ids with
  | nil => exact h.pure_zero
  | cons id ids ih =>
      intro a
      rw [StyleM.resetAll]
      refine ensures_bind (ensures_store ?_)
      cases a.store.registry.get? id with
      | none => exact ih a
      | some p => exact h.add (countChange fun a => hw.reset a p.name) ih a

theorem overwriteAll (h : Tallies R) (hw : CountsWrites R e) (cs : List Candidate) :
    Counts R (overwriteAll e cs) := by
  induction cs with
  | nil => exact h.pure_zero
  | cons c cs ih => exact h.add (countChange fun a => hw.overwrite a _ c.source) ih

theorem applyMatched (h : Tallies R) (hw : CountsWrites R e) (matched : List MatchedRule) :
    Counts R (applyMatched e matched) := by
  intro a
  rw [StyleM.applyMatched]
  refine ensures_bind (ensures_store ?_)
  exact h.add (h.resetAll hw _) (h.overwriteAll hw _) a

theorem insertAll (h : Tallies R) (hi : Admits R es) (ids : List NodeId) (hs : ids ⊆ es)
    (a : Activity) : R a 0 { a with store := (Store.insertAll d ids a.store).2 } := by
  induction ids generalizing a with
  | nil => exact h.refl a
  | cons id ids ih =>
      obtain ⟨hid, hids⟩ := List.cons_subset.mp hs
      rw [Store.insertAll]
      split
      · cases hinsert : a.store.insert id (a.store.knownParent? d id) with
        | error error => exact h.refl a
        | ok s => exact h.trans (hi a id hid _ s hinsert) (ih hids { a with store := s })
      · exact ih hids a

theorem insertTree (h : Tallies R) (hi : Admits R (d.subtree top)) (a : Activity) :
    R a 0 { a with store := (a.store.insertTree d top).2 } := by
  have below : d.descendants top ⊆ d.subtree top := List.subset_cons_self _ _
  unfold Store.insertTree
  split
  · cases hinsert : a.store.insert top none with
    | error error => exact h.refl a
    | ok s =>
        exact h.trans (hi a top List.mem_cons_self _ s hinsert)
          (h.insertAll hi _ below { a with store := s })
  · exact h.insertAll hi _ below a

theorem plant (h : Tallies R) (hi : Admits R (d.subtree top)) :
    Uncounted R (applyPartial (·.insertTree d top)) := by
  intro a
  have planted := h.insertTree hi a
  refine ensures_applyPartial (fun s hs => ?_) fun error s hs => ?_
  · rwa [hs] at planted
  · rwa [hs] at planted

theorem ensure (h : Tallies R) (hi : Admits R es) (he : e ∈ es) : Uncounted R (ensure d e) := by
  intro a
  unfold StyleM.ensure
  refine ensures_bind (ensures_store ?_)
  split
  · exact ensures_apply (fun s hs => hi a e he _ s hs) fun _ _ => h.refl a
  · exact ensures_pure (h.refl a)

theorem cascadeAll (h : Tallies R) (hw : ∀ e, CountsWrites R e) (hi : Admits R es)
    (ids : List NodeId) (hs : ids ⊆ es) :
    Counts R (cascadeAll c d rules ids) := by
  induction ids with
  | nil => exact h.pure_zero
  | cons id ids ih =>
      obtain ⟨hid, hids⟩ := List.cons_subset.mp hs
      exact h.after (h.ensure hi hid) (h.add (h.applyMatched (hw id) _) (ih hids))

theorem cascadeTree (h : Tallies R) (hw : ∀ e, CountsWrites R e)
    (hi : Admits R (d.subtree top)) :
    Counts R (cascadeTree c d rules top) := by
  intro a
  have all : Counts R (StyleM.cascadeAll c d rules (d.subtreeElements top)) :=
    h.cascadeAll hw hi (d.subtreeElements top) List.filter_sublist.subset
  unfold StyleM.cascadeTree
  refine ensures_bind (ensures_store ?_)
  split
  · exact h.after (h.plant hi) all a
  · exact all a

end Tallies

end CssStyling.StyleM
