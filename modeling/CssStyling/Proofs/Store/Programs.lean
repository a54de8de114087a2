import CssStyling.Store.Activity

namespace CssStyling.StyleM

variable {α β : Type} {a b : Activity} {x : StyleM α} {f : α → StyleM β}
  {Q Q' : α → Activity → Prop} {R : β → Activity → Prop} {U : Unit → Activity → Prop}
  {E E' : StyleError → Activity → Prop}

def Ensures (x : StyleM α) (a : Activity) (Q : α → Activity → Prop)
    (E : StyleError → Activity → Prop) : Prop :=
  match x a with
  | .ok v b => Q v b
  | .error error b => E error b

def after (x : StyleM α) (a : Activity) : Activity :=
  match x a with
  | .ok _ b => b
  | .error _ b => b

def answer? : EStateM.Result StyleError Activity α → Option α
  | .ok v _ => some v
  | .error _ _ => none

def result : EStateM.Result StyleError Activity α → Except StyleError α
  | .ok v _ => .ok v
  | .error error _ => .error error

theorem exists_of_answer? {v : α} (h : answer? (x a) = some v) : ∃ b, x a = .ok v b := by
  cases hx : x a with
  | ok w b =>
      rw [hx] at h
      exact ⟨b, by rw [Option.some.inj h]⟩
  | error error b => simp [hx, answer?] at h

theorem exists_of_result {error : StyleError} (h : result (x a) = .error error) :
    ∃ b, x a = .error error b := by
  cases hx : x a with
  | ok v b => simp [hx, result] at h
  | error error' b =>
      rw [hx] at h
      exact ⟨b, by rw [Except.error.inj h]⟩

theorem Ensures.of_ok {v : α} (h : Ensures x a Q E) (hx : x a = .ok v b) : Q v b := by
  simpa only [Ensures, hx] using h

theorem Ensures.of_error {error : StyleError} (h : Ensures x a Q E) (hx : x a = .error error b) :
    E error b := by
  simpa only [Ensures, hx] using h

theorem Ensures.exists_ok (h : Ensures x a Q fun _ _ => False) : ∃ v b, x a = .ok v b ∧ Q v b := by
  unfold Ensures at h
  cases hx : x a with
  | ok v b => exact ⟨v, b, rfl, by simpa only [hx] using h⟩
  | error error b => simp only [hx] at h

theorem ensures_self (x : StyleM α) (a : Activity) :
    Ensures x a (fun v b => x a = .ok v b) fun error b => x a = .error error b := by
  unfold Ensures
  cases x a <;> rfl

theorem after_of_ensures {P : Activity → Prop} (h : Ensures x a (fun _ => P) fun _ => P) :
    P (after x a) := by
  unfold Ensures at h
  unfold after
  cases hx : x a <;> simpa only [hx] using h

theorem Ensures.mono (h : Ensures x a Q E) (hQ : ∀ v b, Q v b → Q' v b)
    (hE : ∀ error b, E error b → E' error b) : Ensures x a Q' E' := by
  unfold Ensures at h ⊢
  cases hx : x a with
  | ok v b => exact hQ v b (by simpa only [hx] using h)
  | error error b => exact hE error b (by simpa only [hx] using h)

theorem Ensures.imp {P : Prop} (h : P → Ensures x a Q E) :
    Ensures x a (fun v b => P → Q v b) fun error b => P → E error b := by
  unfold Ensures at h ⊢
  cases hx : x a <;> simpa only [hx] using h

theorem Ensures.and (h : Ensures x a Q E) (h' : Ensures x a Q' E') :
    Ensures x a (fun v b => Q v b ∧ Q' v b) fun error b => E error b ∧ E' error b := by
  unfold Ensures at h h' ⊢
  cases hx : x a <;> simp only [hx] at h h' ⊢ <;> exact ⟨h, h'⟩

theorem ensures_pure {v : α} (h : Q v a) : Ensures (pure v) a Q E := h

theorem ensures_throw {error : StyleError} (h : E error a) :
    Ensures (throw error : StyleM α) a Q E := h

theorem ensures_bind (h : Ensures x a (fun v b => Ensures (f v) b R E) E) :
    Ensures (x >>= f) a R E := by
  unfold Ensures at h ⊢
  change match EStateM.bind x f a with
    | .ok v b => R v b
    | .error error b => E error b
  unfold EStateM.bind
  cases hx : x a with
  | ok v b =>
      rw [hx] at h
      exact h
  | error error b =>
      rw [hx] at h
      exact h

theorem ensures_store {Q : Store → Activity → Prop} (h : Q a.store a) : Ensures store a Q E := h

theorem ensures_modifyStore {g : Store → Store} (h : U () { a with store := g a.store }) :
    Ensures (modifyStore g) a U E := h

theorem ensures_ask {questions : List Question}
    (h : U () { a with asked := a.asked ++ questions.toArray }) :
    Ensures (ask questions) a U E := h

theorem ensures_notify {c : StyleChange}
    (h : U () { a with
      delivered := a.delivered ++ (a.store.listeners.map (⟨·, c⟩)).toArray }) :
    Ensures (notify c) a U E := h

theorem ensures_apply {f : Store → Except StyleError Store}
    (h : ∀ s, f a.store = .ok s → U () { a with store := s })
    (hn : ∀ error, f a.store = .error error → E error a) : Ensures (apply f) a U E := by
  unfold apply
  refine ensures_bind (ensures_store ?_)
  cases hf : f a.store with
  | ok s => exact ensures_modifyStore (h s hf)
  | error error => exact ensures_throw (hn error hf)

theorem ensures_applyPartial {f : Store → Except StyleError Unit × Store}
    (h : ∀ s, f a.store = (.ok (), s) → U () { a with store := s })
    (hn : ∀ error s, f a.store = (.error error, s) → E error { a with store := s }) :
    Ensures (applyPartial f) a U E := by
  unfold applyPartial
  refine ensures_bind (ensures_store ?_)
  cases hf : f a.store with
  | mk outcome s =>
      refine ensures_bind (ensures_modifyStore ?_)
      cases outcome with
      | ok => exact ensures_pure (h s hf)
      | error error => exact ensures_throw (hn error s hf)

theorem ensures_applyPartial_ok {f : Store → Except StyleError Unit × Store} {s : Store}
    (hf : f a.store = (.ok (), s)) (h : U () { a with store := s }) :
    Ensures (applyPartial f) a U E := by
  refine ensures_applyPartial (fun s' hs => ?_) fun error s' hs => ?_
  · rw [hf] at hs
    obtain ⟨-, rfl⟩ := Prod.mk.inj hs
    exact h
  · rw [hf] at hs
    cases hs

theorem ensures_discard (h : Ensures x a (fun _ b => U () b) E) : Ensures (discard x) a U E := by
  have hbind : discard x = x >>= fun _ => pure () := rfl
  rw [hbind]
  exact ensures_bind (h.mono (fun _ _ hb => ensures_pure hb) fun _ _ => id)

theorem ensures_definition {Q : PropertyDefinition → Activity → Prop} {id : PropertyId}
    (h : ∀ p, a.store.registry.get? id = some p → Q p a)
    (hn : a.store.registry.get? id = none → ∀ error, E error a) :
    Ensures (definition id) a Q E := by
  unfold definition
  refine ensures_bind (ensures_store ?_)
  cases hp : a.store.registry.get? id with
  | some p => exact ensures_pure (h p hp)
  | none => exact ensures_throw (hn hp _)

theorem ensures_propertyId {Q : PropertyId → Activity → Prop} {name : String}
    (h : ∀ id, a.store.registry.id? name = some id → Q id a)
    (hn : a.store.registry.id? name = none → ∀ error, E error a) :
    Ensures (propertyId name) a Q E := by
  unfold propertyId
  refine ensures_bind (ensures_store ?_)
  cases hid : a.store.registry.id? name with
  | some id => exact ensures_pure (h id hid)
  | none => exact ensures_throw (hn hid _)

end CssStyling.StyleM
