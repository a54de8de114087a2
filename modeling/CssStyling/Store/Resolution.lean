import CssStyling.Store.Activity

namespace CssStyling

namespace StyleM

variable (layout : Layout)

def resolvePercentage (p : PropertyDefinition) (e : NodeId) (x : Float) : StyleM Value := do
  match p.percentage with
  | none => throw (.resolution (.noPercentageBase p.name))
  | some resolver =>
      let (questions, outcome) := resolver layout e x
      ask questions
      match outcome with
      | .error error => throw (.resolution error)
      | .ok value => return value

def resolveLength (e : NodeId) (x : Float) : LengthUnit → StyleM Value
  | .px => return .px x
  | unit => do
      ask [.unit e unit]
      match layout.unitScale e unit with
      | none => throw (.resolution (.unknownUnit e unit))
      | some scale => return .px (x * scale)

def keepSpecified (e : NodeId) (id : PropertyId) (value : Value) : StyleM Value := do
  modifyStore (·.modifySlot e id fun slot => { slot with specified := some value })
  return value

def keepComputed (e : NodeId) (id : PropertyId) (value : Value) : StyleM Value := do
  modifyStore (·.modifySlot e id fun slot => { slot with computed := some value })
  return value

def pulls (s : Store) (e : NodeId) (id : PropertyId) : Bool :=
  (s.assigned e id).isDefaulting

mutual

def specifiedWithin : Nat → NodeId → PropertyId → StyleM Value
  | 0, _, id => return (← definition id).initial
  | steps + 1, e, id => do
      let p ← definition id
      let s ← store
      match s.element? e with
      | none => throw (.unknownElement e)
      | some element =>
          match (s.slot? e id).bind (·.specified) with
          | some value => return value
          | none =>
              if (s.assigned e id).isDefaulting then
                match element.parent with
                | some parent =>
                    if p.inherited then
                      resolveAbove steps parent id
                      let value ← computedWithin steps parent id
                      modifyStore (·.addDependent parent id e)
                      keepSpecified e id value
                    else keepSpecified e id p.initial
                | none => keepSpecified e id p.initial
              else keepSpecified e id (s.assigned e id)

def computedWithin : Nat → NodeId → PropertyId → StyleM Value
  | 0, _, id => return (← definition id).initial
  | steps + 1, e, id => do
      let p ← definition id
      match ((← store).slot? e id).bind (·.computed) with
      | some value => return value
      | none =>
          match ← specifiedWithin steps e id with
          | .percentage x => keepComputed e id (← resolvePercentage layout p e x)
          | .dimension x unit => keepComputed e id (← resolveLength layout e x unit)
          | .inherit =>
              match (← store).parent? e with
              | some parent =>
                  let value ← specifiedWithin steps parent id
                  modifyStore (·.addDependent parent id e)
                  keepComputed e id value
              | none => keepComputed e id p.initial
          | value => keepComputed e id value

def resolveAbove : Nat → NodeId → PropertyId → StyleM Unit
  | 0, _, _ => return ()
  | steps + 1, e, id => do
      let s ← store
      match s.parent? e with
      | none => return ()
      | some parent =>
          if s.contains parent && (((s.slot? parent id).bind (·.computed)).isNone) then
            if pulls s parent id then resolveAbove steps parent id
            let _ ← computedWithin steps parent id

end

def steps : StyleM Nat := do
  return 2 * (← store).size + 2

def specifiedById (e : NodeId) (id : PropertyId) : StyleM Value := do
  specifiedWithin layout (← steps) e id

def computedById (e : NodeId) (id : PropertyId) : StyleM Value := do
  computedWithin layout (← steps) e id

def specified (e : NodeId) (name : String) : StyleM Value := do
  specifiedById layout e (← propertyId name)

def computed (e : NodeId) (name : String) : StyleM Value := do
  computedById layout e (← propertyId name)

end StyleM

end CssStyling
