import Mathlib.Data.List.Basic

/-!
# Slots and local names

`SlotTracker` numbers the values of a function that have no name: arguments, basic blocks, and
instructions with a result, in the order in which the function lists them.  A value with a name is
called by it, any other by its slot.
-/

namespace Borealis

/-- What a value inside a function can be. -/
inductive LocalKind where
  | argument
  | block
  | instruction (isVoid : Bool)
deriving DecidableEq

/-- A value inside a function: its name, and its printed form. -/
structure LocalValue where
  name : Option String := none
  kind : LocalKind
  text : String := ""

/-- `CreateFunctionSlot` is called for the value. -/
def LocalValue.hasSlot (v : LocalValue) : Bool :=
  v.name.isNone && v.kind != .instruction true

namespace SlotTracker

/-- `getLocalSlot` for the value at position `i`. -/
def getLocalSlot (values : List LocalValue) (i : Nat) : Int :=
  match values[i]? with
  | some v => if v.hasSlot then ((values.take i).filter LocalValue.hasSlot).length else -1
  | none => -1

/-- `getLocalName` for the value at position `i`. -/
def getLocalName (values : List LocalValue) (i : Nat) : String :=
  match values[i]? with
  | some v =>
    match v.name with
    | some name => name
    | none =>
      if getLocalSlot values i = -1 then "NO_LOCAL_SLOT_FOR_" ++ v.text
      else "%" ++ toString (getLocalSlot values i)
  | none => ""

end SlotTracker

end Borealis
