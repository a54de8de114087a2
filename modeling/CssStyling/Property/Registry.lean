import CssStyling.Property.Definition

namespace CssStyling

abbrev PropertyId := Nat

structure PropertyRegistry where
  definitions : Array PropertyDefinition
  names_nodup : (definitions.toList.map (·.name)).Nodup

namespace PropertyRegistry

def empty : PropertyRegistry :=
  ⟨#[], by simp⟩

def size (r : PropertyRegistry) : Nat :=
  r.definitions.size

def isEmpty (r : PropertyRegistry) : Bool :=
  r.definitions.isEmpty

def exactId? (r : PropertyRegistry) (name : String) : Option PropertyId :=
  r.definitions.findIdx? (·.name == name)

def id? (r : PropertyRegistry) (name : String) : Option PropertyId :=
  (r.exactId? name).or (r.exactId? (Ascii.lower name))

def get? (r : PropertyRegistry) (id : PropertyId) : Option PropertyDefinition :=
  r.definitions[id]?

def find? (r : PropertyRegistry) (name : String) : Option PropertyDefinition :=
  (r.id? name).bind r.get?

theorem names_nodup_set {r : PropertyRegistry} {p : PropertyDefinition} {id : PropertyId}
    (h : r.exactId? p.name = some id) :
    ((r.definitions.setIfInBounds id p).toList.map (·.name)).Nodup := by
  obtain ⟨hlt, hname, -⟩ := Array.findIdx?_eq_some_iff_getElem.mp h
  have same : (r.definitions.setIfInBounds id p).toList.map (·.name) =
      r.definitions.toList.map (·.name) := by
    apply List.ext_getElem
    · simp
    · intro i _ hi
      simp only [List.getElem_map, Array.getElem_toList]
      rw [Array.getElem_setIfInBounds (by simpa using hi)]
      split
      · subst id
        exact (beq_iff_eq.mp hname).symm
      · rfl
  rw [same]
  exact r.names_nodup

theorem names_nodup_push {r : PropertyRegistry} {p : PropertyDefinition}
    (h : r.exactId? p.name = none) : ((r.definitions.push p).toList.map (·.name)).Nodup := by
  have fresh : ∀ q ∈ r.definitions.toList, q.name ≠ p.name := by
    simpa [exactId?] using h
  simp only [Array.toList_push, List.map_append, List.map_cons, List.map_nil]
  refine List.nodup_append.mpr ⟨r.names_nodup, by simp, ?_⟩
  intro a ha b hb
  obtain ⟨q, hq, rfl⟩ := List.mem_map.mp ha
  simp only [List.mem_singleton] at hb
  exact hb ▸ fresh q hq

def define (r : PropertyRegistry) (p : PropertyDefinition) : PropertyRegistry :=
  match h : r.exactId? p.name with
  | some id => ⟨r.definitions.setIfInBounds id p, names_nodup_set h⟩
  | none => ⟨r.definitions.push p, names_nodup_push h⟩

def ofList (ps : List PropertyDefinition) : PropertyRegistry :=
  ps.foldl define empty

def redefined (r : PropertyRegistry) : List PropertyDefinition → List String
  | [] => []
  | p :: ps =>
      if (r.exactId? p.name).isSome then p.name :: (r.define p).redefined ps
      else (r.define p).redefined ps

def redefinitionWarning (name : String) : String :=
  "property `" ++ name ++ "` redefined"

def warnings (ps : List PropertyDefinition) : List String :=
  (empty.redefined ps).map redefinitionWarning

end PropertyRegistry

end CssStyling
