import CssStyling.Proofs.Store.Contents
import CssStyling.Proofs.Store.Resolving
import Mathlib

namespace CssStyling

namespace StyleM

def readById (stage : Stage) (layout : Layout) (e : NodeId) (id : PropertyId) : StyleM Value :=
  match stage with
  | .specified => specifiedById layout e id
  | .computed => computedById layout e id

def read (stage : Stage) (layout : Layout) (e : NodeId) (name : String) : StyleM Value :=
  match stage with
  | .specified => specified layout e name
  | .computed => computed layout e name

variable {a : Activity} {stage : Stage} {layout : Layout} {e : NodeId} {id : PropertyId}
  {name : String}

theorem ensures_readById (hl : a.store.Linked) : Ensures (readById stage layout e id) a
    (fun v b => a.store.Reads layout b.store ∧ (b.store.slotAt e id).cached stage = some v)
    (fun _ b => a.store.Reads layout b.store) := by
  cases stage with
  | specified => exact ensures_specifiedById hl
  | computed => exact ensures_computedById hl

theorem read_eq : read stage layout e name = propertyId name >>= readById stage layout e := by
  cases stage <;> rfl

theorem ensures_read (hl : a.store.Linked) : Ensures (read stage layout e name) a
    (fun v b => a.store.Reads layout b.store ∧
      ∃ id, a.store.registry.id? name = some id ∧ (b.store.slotAt e id).cached stage = some v)
    (fun _ b => a.store.Reads layout b.store) := by
  rw [read_eq]
  refine ensures_bind (ensures_propertyId (fun id hid => ?_) fun _ _ => .refl)
  exact (ensures_readById hl).mono (fun v b hv => ⟨hv.1, id, hid, hv.2⟩) fun _ _ h => h

theorem exists_id_of_read {v : Value} {b : Activity} (h : read stage layout e name a = .ok v b) :
    ∃ id, a.store.registry.id? name = some id ∧ readById stage layout e id a = .ok v b := by
  have named : Ensures (propertyId name >>= readById stage layout e) a
      (fun v b => ∃ id, a.store.registry.id? name = some id ∧
        readById stage layout e id a = .ok v b) fun _ _ => True := by
    refine ensures_bind (ensures_propertyId (fun id hid => ?_) fun _ _ => trivial)
    exact (ensures_self _ a).mono (fun _ _ hb => ⟨id, hid, hb⟩) fun _ _ _ => trivial
  rw [read_eq] at h
  exact named.of_ok h

end StyleM

inductive StyleOperation where
  | insert (e : NodeId) (parent : Option NodeId)
  | setParent (e : NodeId) (parent : Option NodeId)
  | remove (e : NodeId)
  | assign (e : NodeId) (name : String) (value : Value) (provenance : Option Provenance)
  | cascade (e : NodeId) (name : String) (source : PropertySlot)
  | overwrite (e : NodeId) (name : String) (source : PropertySlot)
  | reset (e : NodeId) (name : String)
  | invalidateElement (e : NodeId)
  | invalidateAll
  | read (stage : Stage) (layout : Layout) (e : NodeId) (name : String)
  | readById (stage : Stage) (layout : Layout) (e : NodeId) (id : PropertyId)

namespace StyleOperation

open StyleM

def program : StyleOperation → StyleM Unit
  | insert e parent => apply (·.insert e parent)
  | setParent e parent => apply (·.setParent e parent)
  | remove e => apply (·.remove e)
  | assign e name value provenance => discard (StyleM.assign e name value provenance)
  | cascade e name source => discard (StyleM.cascade e name source)
  | overwrite e name source => discard (StyleM.overwrite e name source)
  | reset e name => discard (StyleM.reset e name)
  | invalidateElement e => modifyStore (·.invalidateElement e)
  | invalidateAll => modifyStore (·.invalidateAll)
  | read stage layout e name => discard (StyleM.read stage layout e name)
  | readById stage layout e id => discard (StyleM.readById stage layout e id)

def writes : StyleOperation → Bool
  | assign .. => true
  | cascade .. => true
  | overwrite .. => true
  | reset .. => true
  | _ => false

def perform (a : Activity) (o : StyleOperation) : Activity :=
  match o.program a with
  | .ok _ b => b
  | .error _ b => b

def run (r : PropertyRegistry) (os : List StyleOperation) : Activity :=
  os.foldl perform ⟨.ofRegistry r, #[], #[]⟩

/-- The layouts of the reads since everything was forgotten last. -/
def recent (used : List Layout) : StyleOperation → List Layout
  | invalidateAll => []
  | read _ layout _ _ => layout :: used
  | readById _ layout _ _ => layout :: used
  | _ => used

def layouts (os : List StyleOperation) : List Layout :=
  os.foldl recent []

variable {r : PropertyRegistry} {a b : Activity} {o : StyleOperation} {os : List StyleOperation}
  {used : List Layout} {layout : Layout} {P : Activity → Prop}

theorem perform_of_ensures (h : Ensures o.program a (fun _ => P) fun _ => P) :
    P (perform a o) := by
  unfold perform
  unfold Ensures at h
  cases hx : o.program a <;> simpa only [hx] using h

inductive Changes (s : Store) : StyleOperation → Store → Prop where
  | refused {o : StyleOperation} : (∀ used, recent used o = used) → Changes s o s
  | insert {e : NodeId} {parent : Option NodeId} {s' : Store} : s.insert e parent = .ok s' →
      Changes s (.insert e parent) s'
  | setParent {e : NodeId} {parent : Option NodeId} {s' : Store} : s.setParent e parent = .ok s' →
      Changes s (.setParent e parent) s'
  | remove {e : NodeId} {s' : Store} : s.remove e = .ok s' → Changes s (.remove e) s'
  | write {o : StyleOperation} {e : NodeId} {id : PropertyId} {p : PropertyDefinition}
      {slot : PropertySlot} {changed : Bool} : o.writes = true → s.contains e = true →
      s.registry.get? id = some p → (s.slotAt e id).Written slot changed →
      Changes s o (s.written e id slot changed)
  | invalidateElement {e : NodeId} : Changes s (.invalidateElement e) (s.invalidateElement e)
  | invalidateAll : Changes s .invalidateAll s.invalidateAll
  | read {stage : Stage} {layout : Layout} {e : NodeId} {name : String} {s' : Store} :
      s.Reads layout s' → Changes s (.read stage layout e name) s'
  | readById {stage : Stage} {layout : Layout} {e : NodeId} {id : PropertyId} {s' : Store} :
      s.Reads layout s' → Changes s (.readById stage layout e id) s'

theorem recent_of_writes (h : o.writes = true) : recent used o = used := by
  cases o <;> first | rfl | cases h

theorem program_changes (hl : a.store.Linked) (o : StyleOperation) :
    Ensures o.program a (fun _ b => Changes a.store o b.store)
      fun _ b => Changes a.store o b.store := by
  have moves {f : Store → Except StyleError Store} (ho : ∀ used, recent used o = used)
      (hf : ∀ s, f a.store = .ok s → Changes a.store o s) :
      Ensures (apply f) a (fun _ b => Changes a.store o b.store)
        fun _ b => Changes a.store o b.store :=
    ensures_apply hf fun _ _ => .refused ho
  have writes {w : StyleM Bool} {e : NodeId} {name : String} (hw : Writes e name w)
      (ho : o.writes = true) : Ensures (discard w) a (fun _ b => Changes a.store o b.store)
        fun _ b => Changes a.store o b.store := by
    obtain ⟨hc⟩ := hw
    refine ensures_discard (ensures_write ?_ ?_ fun _ _ => .refused fun _ => recent_of_writes ho)
    · intro id p slot changed _ he hp hchange
      exact .write ho he hp (hc p _ changed slot hchange)
    · intro id p error _ he hp _
      have untouched : Changes a.store o (a.store.written e id (a.store.slotAt e id) false) :=
        .write ho he hp (.refl _)
      exact untouched
  cases o with
  | insert e parent => exact moves (fun _ => rfl) fun _ => .insert
  | setParent e parent => exact moves (fun _ => rfl) fun _ => .setParent
  | remove e => exact moves (fun _ => rfl) fun _ => .remove
  | assign e name value provenance => exact writes (writes_assign e name value provenance) rfl
  | cascade e name source => exact writes (writes_cascade e name source) rfl
  | overwrite e name source => exact writes (writes_overwrite e name source) rfl
  | reset e name => exact writes (writes_reset e name) rfl
  | invalidateElement e =>
      simp only [program]
      exact ensures_modifyStore .invalidateElement
  | invalidateAll =>
      simp only [program]
      exact ensures_modifyStore .invalidateAll
  | read stage layout e name =>
      exact ensures_discard ((ensures_read hl).mono (fun _ _ hb => .read hb.1)
        fun _ _ hb => .read hb)
  | readById stage layout e id =>
      exact ensures_discard ((ensures_readById hl).mono (fun _ _ hb => .readById hb.1)
        fun _ _ hb => .readById hb)

theorem perform_changes (hl : a.store.Linked) (o : StyleOperation) :
    Changes a.store o (perform a o).store :=
  perform_of_ensures (P := fun b => Changes a.store o b.store) (program_changes hl o)

structure Sound (r : PropertyRegistry) (used : List Layout) (a : Activity) : Prop where
  registry : a.store.registry = r
  linked : a.store.Linked
  fresh {layout : Layout} : (∀ l ∈ used, l = layout) → a.store.Fresh layout

theorem Sound.preserved (h : Sound r used a) (hb : a.store.Preserves b.store) :
    Sound r used b where
  registry := (hb.registry h.linked).trans h.registry
  linked := hb.linked h.linked
  fresh hl := hb.supported _ h.linked (h.fresh hl)

theorem Sound.read (h : Sound r used a) (hb : a.store.Reads layout b.store) :
    Sound r (layout :: used) b where
  registry := hb.grown.registry.trans h.registry
  linked := hb.linked h.linked
  fresh hl := by
    obtain rfl := hl layout List.mem_cons_self
    exact hb.fresh (h.fresh fun l hmem => hl l (List.mem_cons_of_mem _ hmem))

theorem Sound.changed (h : Sound r used a) (hb : Changes a.store o b.store) :
    Sound r (recent used o) b := by
  generalize hs : b.store = s at hb
  have preserved (hp : a.store.Preserves s) : Sound r used b := h.preserved (hs ▸ hp)
  cases hb with
  | refused ho =>
      rw [ho]
      exact preserved (.refl a.store)
  | insert hi => exact preserved (Store.insert_preserves hi)
  | setParent hp => exact preserved (Store.setParent_preserves hp)
  | remove hr => exact preserved (Store.remove_preserves hr)
  | write ho he _ hw =>
      rw [recent_of_writes ho]
      exact preserved (Store.written_preserves he hw)
  | invalidateElement => exact preserved Store.invalidateElement_preserves
  | invalidateAll =>
      exact ⟨hs ▸ h.registry, hs ▸ Store.invalidateAll_linked h.linked,
        fun _ => hs ▸ Store.invalidateAll_supported⟩
  | read hr | readById hr => exact h.read (hs ▸ hr)

theorem perform_sound (h : Sound r used a) (o : StyleOperation) :
    Sound r (recent used o) (perform a o) :=
  h.changed (perform_changes h.linked o)

theorem run_sound (r : PropertyRegistry) (os : List StyleOperation) :
    Sound r (layouts os) (run r os) := by
  have start : Sound r [] ⟨.ofRegistry r, #[], #[]⟩ :=
    ⟨rfl, Store.ofRegistry_linked r, fun _ =>
      .of_nothing_kept fun e id => by rw [Store.slotAt_ofRegistry]; exact ⟨rfl, rfl⟩⟩
  have steps : ∀ (os : List StyleOperation) (used : List Layout) (a : Activity),
      Sound r used a → Sound r (os.foldl recent used) (os.foldl perform a) := by
    intro os
    induction os with
    | nil => exact fun _ _ h => h
    | cons o os ih => exact fun used a h => ih _ _ (perform_sound h o)
  exact steps os [] _ start

theorem Changes.known {s s' : Store} (hs : Changes s o s') (h : s.Known) : s'.Known := by
  cases hs with
  | refused => exact h
  | insert hi => exact h.insert hi
  | setParent hp => exact h.sameContents (Store.setParent_sameContents hp)
  | remove hr => exact h.remove hr
  | write _ _ hp _ => exact h.written (Option.isSome_of_eq_some hp)
  | invalidateElement => exact h.sameContents Store.invalidateElement_sameContents
  | invalidateAll => exact h.sameContents Store.invalidateAll_sameContents
  | read hr | readById hr =>
      exact h.congr hr.grown.registry fun x j hx => by rwa [hr.grown.provenance] at hx

theorem perform_known (hl : a.store.Linked) (h : a.store.Known) (o : StyleOperation) :
    (perform a o).store.Known :=
  (perform_changes hl o).known h

theorem read_eq_derived (h : ∀ l ∈ layouts os, l = layout) :
    (∀ stage e name v b, StyleM.read stage layout e name (run r os) = .ok v b →
      ∃ id p, r.id? name = some id ∧ r.get? id = some p ∧
        ∀ w, (run r os).store.Derives layout p id stage e w ↔ w = v) ∧
    (∀ stage e id v, ((run r os).store.slotAt e id).cached stage = some v →
      ∃ p, r.get? id = some p ∧
        ∀ w, (run r os).store.Derives layout p id stage e w ↔ w = v) := by
  have sound := run_sound r os
  have fresh := sound.fresh h
  constructor
  · intro stage e name v b hread
    obtain ⟨hb, id, hid, hv⟩ := (ensures_read sound.linked).of_ok hread
    have hg := hb.grown
    -- what supports the answer names the definition
    obtain ⟨p, hp⟩ := (hb.fresh fresh).exists_definition hv
    have derived := (hb.fresh fresh).derives (hb.linked sound.linked) hp hv
    refine ⟨id, p, sound.registry ▸ hid, sound.registry ▸ hg.registry ▸ hp, ?_⟩
    exact (derived.congr (fun x => (hg.assigned x id).symm) fun x => (hg.parent x).symm).iff_eq
  · intro stage e id v hv
    obtain ⟨p, hp⟩ := fresh.exists_definition hv
    exact ⟨p, sound.registry ▸ hp, (fresh.derives sound.linked hp hv).iff_eq⟩

def ink : PropertyRegistry :=
  ⟨#[⟨"color", .keyword "black", true, .ofKind .keyword, .empty, none, none, 0⟩], by decide⟩

def noLayout : Layout :=
  ⟨fun _ _ => none, fun _ _ => none⟩

def recoloring : List StyleOperation :=
  [insert ⟨0, 1⟩ none, insert ⟨1, 1⟩ (some ⟨0, 1⟩), assign ⟨0, 1⟩ "color" (.keyword "red") none,
    read .computed noLayout ⟨1, 1⟩ "color", assign ⟨0, 1⟩ "color" (.keyword "blue") none]

theorem read_recoloring : (∀ l ∈ layouts recoloring, l = noLayout) ∧
    ∃ id p, ink.id? "color" = some id ∧ ink.get? id = some p ∧
      ∀ w, (run ink recoloring).store.Derives noLayout p id .computed ⟨1, 1⟩ w ↔
        w = .keyword "blue" := by
  have single : ∀ l ∈ layouts recoloring, l = noLayout := by
    simp [layouts, recoloring, recent]
  have answer : answer? (StyleM.read .computed noLayout ⟨1, 1⟩ "color" (run ink recoloring)) =
      some (.keyword "blue") := by cbv
  obtain ⟨b, hb⟩ := exists_of_answer? answer
  exact ⟨single, (read_eq_derived single).1 .computed ⟨1, 1⟩ "color" (.keyword "blue") b hb⟩

end StyleOperation

end CssStyling
