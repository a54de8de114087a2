import CssStyling.Store.Structure

namespace CssStyling

structure StyleChange where
  element : NodeId
  property : String
  old : Value
  new : Value
  dirt : Dirt
  deriving Repr

structure Delivery where
  subscription : SubscriptionId
  change : StyleChange
  deriving Repr

structure Activity where
  store : Store
  asked : Array Question
  delivered : Array Delivery

instance : Inhabited Activity :=
  ⟨default, #[], #[]⟩

abbrev StyleM := EStateM StyleError Activity

namespace Store

def subscribe (s : Store) : SubscriptionId × Store :=
  (s.nextSubscription,
    { s with
      listeners := s.listeners ++ [s.nextSubscription]
      nextSubscription := s.nextSubscription + 1 })

def unsubscribe (s : Store) (id : SubscriptionId) : Bool × Store :=
  (s.listeners.contains id, { s with listeners := s.listeners.filter (· != id) })

end Store

namespace StyleM

def store : StyleM Store := do
  return (← get).store

def modifyStore (f : Store → Store) : StyleM Unit :=
  modify fun a => { a with store := f a.store }

def ask (questions : List Question) : StyleM Unit :=
  modify fun a => { a with asked := a.asked ++ questions.toArray }

def notify (c : StyleChange) : StyleM Unit :=
  modify fun a => { a with delivered := a.delivered ++ (a.store.listeners.map (⟨·, c⟩)).toArray }

def apply (f : Store → Except StyleError Store) : StyleM Unit := do
  match f (← store) with
  | .ok s => modifyStore fun _ => s
  | .error e => throw e

def applyPartial (f : Store → Except StyleError Unit × Store) : StyleM Unit := do
  let (outcome, s) := f (← store)
  modifyStore fun _ => s
  match outcome with
  | .ok () => return ()
  | .error e => throw e

def propertyId (name : String) : StyleM PropertyId := do
  match (← store).registry.id? name with
  | some id => return id
  | none => throw (.unknownProperty name)

def definition (id : PropertyId) : StyleM PropertyDefinition := do
  match (← store).registry.get? id with
  | some p => return p
  | none => throw (.unknownProperty ("PropertyId(" ++ toString id ++ ")"))

end StyleM

end CssStyling
