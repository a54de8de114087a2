import CssStyling.Property.Builder
import CssStyling.Proofs.Selector.Balancing
import Mathlib

namespace CssStyling

namespace PropertyRegistry

variable {r : PropertyRegistry} {p : PropertyDefinition} {ps : List PropertyDefinition}
  {s : String} {i : PropertyId}

def names (r : PropertyRegistry) : List String :=
  r.definitions.toList.map (·.name)

theorem getElem?_names : r.names[i]? = (r.get? i).map (·.name) := by
  rw [names, List.getElem?_map, Array.getElem?_toList, get?]

theorem exactId?_eq_some : r.exactId? s = some i ↔ r.names[i]? = some s := by
  rw [getElem?_names, Option.map_eq_some_iff, exactId?, Array.findIdx?_eq_some_iff_getElem]
  constructor
  · rintro ⟨hi, hs, -⟩
    exact ⟨_, Array.getElem?_eq_getElem hi, beq_iff_eq.mp hs⟩
  · rintro ⟨p, hp, rfl⟩
    obtain ⟨hi, rfl⟩ := Array.getElem?_eq_some_iff.mp hp
    refine ⟨hi, beq_self_eq_true _, fun j hj same => ?_⟩
    have apart := List.pairwise_iff_getElem.mp r.names_nodup j i (by simp; omega) (by simpa) hj
    exact apart (by simpa using same)

theorem exactId?_eq_none : r.exactId? s = none ↔ s ∉ r.names := by
  simp [exactId?, names]

theorem id?_eq_some (h : ∀ name ∈ r.names, Ascii.lower name = name) :
    r.id? s = some i ↔ r.names[i]? = some (Ascii.lower s) := by
  rw [id?, ← exactId?_eq_some]
  cases hs : r.exactId? s with
  | none => rw [Option.none_or]
  | some j =>
      have lowered : Ascii.lower s = s := h s (List.mem_of_getElem? (exactId?_eq_some.mp hs))
      rw [lowered, hs, Option.some_or]

theorem define_of_some (h : r.exactId? p.name = some i) :
    (r.define p).definitions = r.definitions.setIfInBounds i p := by
  unfold define
  split
  · rename_i j hj
    rw [Option.some.inj (h.symm.trans hj)]
  · rename_i hn
    rw [h] at hn
    cases hn

theorem define_of_none (h : r.exactId? p.name = none) :
    (r.define p).definitions = r.definitions.push p := by
  unfold define
  split
  · rename_i j hj
    rw [h] at hj
    cases hj
  · rfl

theorem get?_define_of_some {j : PropertyId} (h : r.exactId? p.name = some i) :
    (r.define p).get? j = if i = j then some p else r.get? j := by
  obtain ⟨hi, -⟩ := Array.findIdx?_eq_some_iff_getElem.mp h
  rw [get?, define_of_some h, Array.getElem?_setIfInBounds, if_pos hi, get?]

theorem get?_define_of_none {j : PropertyId} (h : r.exactId? p.name = none) :
    (r.define p).get? j = if j = r.size then some p else r.get? j := by
  rw [get?, define_of_none h, Array.getElem?_push, get?, size]

theorem names_define :
    (r.define p).names = if p.name ∈ r.names then r.names else r.names ++ [p.name] := by
  cases h : r.exactId? p.name with
  | some i =>
      have held := exactId?_eq_some.mp h
      rw [if_pos (List.mem_of_getElem? held)]
      refine List.ext_getElem? fun j => ?_
      rw [getElem?_names, get?_define_of_some h]
      split
      · subst j
        exact held.symm
      · exact getElem?_names.symm
  | none =>
      rw [if_neg (exactId?_eq_none.mp h), names, define_of_none h, Array.toList_push,
        List.map_append, names]
      rfl

theorem get?_define : (r.define p).get? i =
    if (r.define p).names[i]? = some p.name then some p else r.get? i := by
  have held : (r.get? i).map (·.name) = some p.name ↔ r.exactId? p.name = some i := by
    rw [← getElem?_names, exactId?_eq_some]
  rw [getElem?_names]
  cases h : r.exactId? p.name with
  | some j =>
      rw [get?_define_of_some h]
      by_cases hj : j = i
      · simp [hj]
      · have other : (r.get? i).map (·.name) ≠ some p.name := fun same =>
          hj (Option.some.inj (h.symm.trans (held.mp same)))
        rw [if_neg hj, if_neg other]
  | none =>
      rw [get?_define_of_none h]
      by_cases hi : i = r.size
      · simp [hi]
      · have other : (r.get? i).map (·.name) ≠ some p.name := fun same => by
          cases h.symm.trans (held.mp same)
        rw [if_neg hi, if_neg other]

theorem getElem?_names_define (h : (r.define p).names[i]? ≠ some p.name) :
    (r.define p).names[i]? = r.names[i]? := by
  rw [getElem?_names, get?_define, if_neg h, getElem?_names]

theorem exactId?_congr {r' : PropertyRegistry} (h : r'.names = r.names) :
    r'.exactId? s = r.exactId? s :=
  Option.ext fun i => by rw [exactId?_eq_some, exactId?_eq_some, h]

theorem exactId?_define : (r.define p).exactId? s =
    if p.name = s then some ((r.exactId? p.name).getD r.size) else r.exactId? s := by
  cases h : r.exactId? p.name with
  | some i =>
      have known : p.name ∈ r.names := List.mem_of_getElem? (exactId?_eq_some.mp h)
      rw [exactId?_congr (names_define.trans (if_pos known))]
      split
      · subst s
        exact h
      · rfl
  | none =>
      rw [exactId?, define_of_none h, Array.findIdx?_push, ← exactId?]
      by_cases hs : p.name = s
      · subst s
        rw [h, if_pos (beq_self_eq_true _), if_pos rfl]
        rfl
      · rw [if_neg (by simpa using hs), if_neg hs, Option.or_none]

def lastNamed (ps : List PropertyDefinition) (name : String) : Option PropertyDefinition :=
  (ps.filter (·.name == name)).getLast?

theorem lastNamed_concat {name : String} :
    lastNamed (ps ++ [p]) name = if p.name = name then some p else lastNamed ps name := by
  by_cases h : p.name = name <;> simp [lastNamed, List.filter_append, h]

theorem ofList_concat : ofList (ps ++ [p]) = (ofList ps).define p :=
  List.foldl_concat ..

theorem names_ofList : (ofList ps).names = (ps.map (·.name)).eraseDups := by
  induction ps using List.reverseRecOn with
  | nil => rfl
  | append_singleton ps p ih =>
      rw [ofList_concat, names_define, ih, List.map_append, List.eraseDups_append]
      have added : ([p].map (·.name)).removeAll (ps.map (·.name)) =
          if p.name ∈ ps.map (·.name) then [] else [p.name] := by
        by_cases h : p.name ∈ ps.map (·.name)
        · rw [if_pos h, List.map_singleton, List.removeAll,
            List.filter_cons_of_neg (by simpa using h), List.filter_nil]
        · rw [if_neg h, List.map_singleton, List.removeAll,
            List.filter_cons_of_pos (by simpa using h), List.filter_nil]
      rw [added]
      simp only [List.mem_eraseDups]
      split
      · rw [List.eraseDups_nil, List.append_nil]
      · rfl

theorem get?_ofList : (ofList ps).get? i = (ofList ps).names[i]?.bind (lastNamed ps) := by
  induction ps using List.reverseRecOn with
  | nil => simp [ofList, empty, get?, names]
  | append_singleton ps p ih =>
      rw [ofList_concat, get?_define]
      by_cases h : ((ofList ps).define p).names[i]? = some p.name
      · rw [if_pos h, h, Option.bind_some, lastNamed_concat, if_pos rfl]
      · have same := getElem?_names_define h
        rw [same] at h ⊢
        rw [if_neg h, ih]
        cases hn : (ofList ps).names[i]? with
        | none => rfl
        | some name =>
            have other : p.name ≠ name := fun heq => h (by rw [hn, heq])
            rw [Option.bind_some, Option.bind_some, lastNamed_concat, if_neg other]

theorem length_redefined (r : PropertyRegistry) (ps : List PropertyDefinition) :
    (ps.foldl define r).names.length + (r.redefined ps).length = r.names.length + ps.length := by
  induction ps generalizing r with
  | nil => rfl
  | cons p ps ih =>
      have rest := ih (r.define p)
      have first : (r.exactId? p.name).isSome = true ↔ p.name ∈ r.names := by
        rw [Option.isSome_iff_ne_none, Ne, exactId?_eq_none, not_not]
      rw [names_define] at rest
      rw [List.foldl_cons, redefined, List.length_cons]
      by_cases h : p.name ∈ r.names
      · rw [if_pos h] at rest
        rw [if_pos (first.mpr h), List.length_cons]
        omega
      · rw [if_neg h, List.length_append, List.length_singleton] at rest
        rw [if_neg fun some => h (first.mp some)]
        omega

theorem length_warnings : (ofList ps).names.length + (warnings ps).length = ps.length := by
  rw [warnings, List.length_map, ofList, length_redefined]
  exact Nat.zero_add _

end PropertyRegistry

namespace RegistryBuilder

variable {b : RegistryBuilder} {r : PropertyRegistry} {p : PropertyDefinition}
  {ps : List PropertyDefinition}

structure InStep (b : RegistryBuilder) (r : PropertyRegistry) : Prop where
  definitions : b.definitions = r.definitions
  numbers (s : String) : b.numbers[s]? = r.exactId? s

theorem InStep.define (h : b.InStep r) (p : PropertyDefinition) :
    (b.define p).InStep (r.define p) := by
  unfold RegistryBuilder.define
  cases hp : r.exactId? p.name with
  | some i =>
      rw [h.numbers, hp]
      dsimp only
      refine ⟨?_, fun s => ?_⟩
      · rw [PropertyRegistry.define_of_some hp, h.definitions]
      · rw [PropertyRegistry.exactId?_define, hp, Option.getD_some, h.numbers]
        split
        · subst s
          exact hp
        · rfl
  | none =>
      rw [h.numbers, hp]
      refine ⟨?_, fun s => ?_⟩
      · rw [PropertyRegistry.define_of_none hp, h.definitions]
      · rw [PropertyRegistry.exactId?_define, hp, Option.getD_none, Std.HashMap.getElem?_insert,
          h.definitions, h.numbers]
        simp [PropertyRegistry.size]

theorem warnings_define (h : b.InStep r) :
    (b.define p).warnings = b.warnings ++
      if (r.exactId? p.name).isSome then [PropertyRegistry.redefinitionWarning p.name] else [] := by
  unfold RegistryBuilder.define
  rw [h.numbers]
  cases r.exactId? p.name with
  | some i => rfl
  | none => exact (List.append_nil _).symm

theorem InStep.foldl (h : b.InStep r) (ps : List PropertyDefinition) :
    (ps.foldl RegistryBuilder.define b).InStep (ps.foldl PropertyRegistry.define r) ∧
      (ps.foldl RegistryBuilder.define b).warnings =
        b.warnings ++ (r.redefined ps).map PropertyRegistry.redefinitionWarning := by
  induction ps generalizing b r with
  | nil => exact ⟨h, (List.append_nil _).symm⟩
  | cons p ps ih =>
      obtain ⟨step, warned⟩ := ih (h.define p)
      refine ⟨step, ?_⟩
      rw [List.foldl_cons, warned, warnings_define h, PropertyRegistry.redefined]
      split <;> simp

theorem ofList_inStep (ps : List PropertyDefinition) :
    (ofList ps).InStep (.ofList ps) ∧ (ofList ps).warnings = PropertyRegistry.warnings ps := by
  have nothing (s : String) : empty.numbers[s]? = PropertyRegistry.empty.exactId? s := by
    rw [PropertyRegistry.exactId?_eq_none.mpr List.not_mem_nil]
    exact Std.HashMap.getElem?_empty
  have start : empty.InStep .empty := ⟨rfl, nothing⟩
  exact start.foldl ps

theorem InStep.id? (h : b.InStep r) (s : String) : b.id? s = r.id? s := by
  rw [RegistryBuilder.id?, PropertyRegistry.id?, h.numbers, h.numbers]
  cases r.exactId? s <;> rfl

theorem InStep.get? (h : b.InStep r) (i : PropertyId) : b.get? i = r.get? i := by
  rw [RegistryBuilder.get?, PropertyRegistry.get?, h.definitions]

end RegistryBuilder

namespace PropertyRegistry

variable {ps : List PropertyDefinition} {spelled : List String}

theorem names_ofList_spelled (h : ps.map (·.name) = spelled.map Ascii.lower) :
    (ofList ps).names = (spelled.map Ascii.lower).eraseDups := by
  rw [names_ofList, h]

theorem id?_ofList (h : ps.map (·.name) = spelled.map Ascii.lower) (s : String) (i : PropertyId) :
    (ofList ps).id? s = some i ↔
      (spelled.map Ascii.lower).eraseDups[i]? = some (Ascii.lower s) := by
  have lowered : ∀ name ∈ (ofList ps).names, Ascii.lower name = name := by
    intro name hname
    rw [names_ofList_spelled h, List.mem_eraseDups] at hname
    obtain ⟨word, -, rfl⟩ := List.mem_map.mp hname
    exact Ascii.lower_lower word
  rw [id?_eq_some lowered, names_ofList_spelled h]

theorem ofList_numbers (h : ps.map (·.name) = spelled.map Ascii.lower) :
    let names := (spelled.map Ascii.lower).eraseDups
    let r := ofList ps
    let b := RegistryBuilder.ofList ps
    r.definitions.toList.map (·.name) = names ∧
      (∀ s i, r.id? s = some i ↔ names[i]? = some (Ascii.lower s)) ∧
      (∀ i, r.get? i = names[i]?.bind fun name => (ps.filter (·.name == name)).getLast?) ∧
      (∀ (spelled' : List String) (more : List PropertyDefinition),
        more.map (·.name) = spelled'.map Ascii.lower →
          ∀ s i, r.id? s = some i → (ofList (ps ++ more)).id? s = some i) ∧
      names.length + (warnings ps).length = ps.length ∧
      b.definitions = r.definitions ∧ (∀ s, b.id? s = r.id? s) ∧ (∀ i, b.get? i = r.get? i) ∧
      b.warnings = warnings ps ∧
      (names.length ≤ 2 ^ 32 → ∀ s i, r.id? s = some i → (UInt32.ofNat i).toNat = i) := by
  intro names r b
  have same : r.names = names := names_ofList_spelled h
  obtain ⟨step, warned⟩ := RegistryBuilder.ofList_inStep ps
  refine ⟨same, id?_ofList h, fun i => ?_, fun spelled' more hmore s i hi => ?_, ?_,
    step.definitions, step.id?, step.get?, warned, fun room s i hi => ?_⟩
  · rw [← same]
    exact get?_ofList
  · have all : (ps ++ more).map (·.name) = (spelled ++ spelled').map Ascii.lower := by
      rw [List.map_append, List.map_append, h, hmore]
    -- the names so far are a front of all names
    rw [id?_ofList all, List.map_append, List.eraseDups_append]
    have held : names[i]? = some (Ascii.lower s) := (id?_ofList h s i).mp hi
    rwa [List.getElem?_append_left (List.getElem?_eq_some_iff.mp held).1]
  · rw [← same]
    exact length_warnings
  · have numbered : names[i]? = some (Ascii.lower s) := (id?_ofList h s i).mp hi
    exact UInt32.toNat_ofNat_of_lt' ((List.getElem?_eq_some_iff.mp numbered).1.trans_le room)

theorem ofList_numbers_respelled :
    let ps := [.make "a" .auto, .make "B" .auto, (PropertyDefinition.make "A" .none).inheriting]
    ps.map (·.name) = ["a", "B", "A"].map Ascii.lower ∧
      (ofList ps).id? "b" = some 1 ∧ (warnings ps).length = 1 := by
  intro ps
  have spelled : ps.map (·.name) = ["a", "B", "A"].map Ascii.lower := rfl
  have names : (["a", "B", "A"].map Ascii.lower).eraseDups = ["a", "b"] := by decide +kernel
  obtain ⟨-, ids, -, -, warned, -⟩ := ofList_numbers spelled
  rw [names] at warned
  refine ⟨spelled, (ids "b" 1).mpr ?_, Nat.add_left_cancel warned⟩
  rw [names]
  decide +kernel

end PropertyRegistry

end CssStyling
