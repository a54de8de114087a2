import CssStyling.Key
import CssStyling.Text.Literal

namespace CssStyling

structure Slot (α : Type) where
  generation : UInt32
  value : Option α
  nextFree : Option Nat
  deriving Repr

structure SlotMap (α : Type) where
  slots : Array (Slot α)
  firstFree : Option Nat
  size : Nat
  deriving Repr

structure StaleKey where
  key : Key
  deriving DecidableEq, Repr

namespace StaleKey

def message (e : StaleKey) : String :=
  "stale arena index " ++ e.key.text

end StaleKey

namespace SlotMap

variable {α : Type}

def empty : SlotMap α :=
  ⟨#[], none, 0⟩

instance : Inhabited (SlotMap α) :=
  ⟨empty⟩

def isEmpty (m : SlotMap α) : Bool :=
  m.size == 0

def get? (m : SlotMap α) (k : Key) : Option α :=
  match m.slots[k.slot]? with
  | some slot => if slot.generation = k.generation then slot.value else none
  | none => none

def contains (m : SlotMap α) (k : Key) : Bool :=
  (m.get? k).isSome

def find (m : SlotMap α) (k : Key) : Except StaleKey α :=
  match m.get? k with
  | some a => .ok a
  | none => .error ⟨k⟩

def push (m : SlotMap α) (a : α) : Key × SlotMap α :=
  (⟨m.slots.size, 0⟩, { m with slots := m.slots.push ⟨0, some a, none⟩, size := m.size + 1 })

def insert (m : SlotMap α) (a : α) : Key × SlotMap α :=
  match m.firstFree with
  | some i =>
      match m.slots[i]? with
      | some slot =>
          (⟨i, slot.generation⟩,
            ⟨m.slots.setIfInBounds i ⟨slot.generation, some a, none⟩, slot.nextFree, m.size + 1⟩)
      | none => m.push a
  | none => m.push a

def modify (m : SlotMap α) (k : Key) (f : α → α) : SlotMap α :=
  { m with slots := m.slots.modify k.slot fun slot =>
      if slot.generation = k.generation then { slot with value := slot.value.map f } else slot }

def erase (m : SlotMap α) (k : Key) : SlotMap α :=
  if m.contains k then
    ⟨m.slots.modify k.slot fun slot => ⟨slot.generation + 1, none, m.firstFree⟩, some k.slot,
      m.size - 1⟩
  else m

def remove (m : SlotMap α) (k : Key) : Option α × SlotMap α :=
  (m.get? k, m.erase k)

def entry? (i : Nat) (slot : Slot α) : Option (Key × α) :=
  slot.value.map fun a => (⟨i, slot.generation⟩, a)

def toList (m : SlotMap α) : List (Key × α) :=
  (m.slots.toList.zipIdx).filterMap fun (slot, i) => entry? i slot

end SlotMap

namespace SlotMap

def entryText (e : Key × String) : String :=
  e.1.text ++ ": " ++ String.ofList (Literal.ofString e.2)

def diagnostic (m : SlotMap String) : String :=
  "\x7b" ++ ", ".intercalate (m.toList.map entryText) ++ "\x7d"

end SlotMap

end CssStyling
