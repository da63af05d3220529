import Mathlib.Data.Fintype.Card
import Mathlib.Data.List.Basic
import Mathlib.Logic.Function.Basic

/-!
# The type factory

`Type/TypeFactory.cpp`.  Types are shared objects that are compared by their addresses, so the
factory keeps one object for every type it was asked for.  Here an object is a number, `objects`
says what the objects are, and `table` is the union of the factory's tables: the key of a table is
the node that its objects have, with the addresses of the types it is built from.

`getRecord` casts the fields of an LLVM struct before it stores the record.  A cast that meets the
struct again finds it among the visited ones and stores a record of its own, which the field keeps;
when the fields are done, a new record takes the place of that one.

The structs of the module are a parameter: `S` are their addresses.  Fuel bounds the nesting of
structs whose fields are being cast.
-/

namespace Borealis

namespace TypeFactory

/-! ## Types -/

/-- `llvm::Signedness`. -/
inductive Signedness where
  | unknown | signed | unsigned
deriving DecidableEq

/-- The address of a type. -/
abbrev Id := Nat

/-- The classes of `Type.def`.  The body of a record is looked up by its name. -/
inductive Node where
  | integer (bitsize : Nat) (signedness : Signedness)
  | bool
  | float
  | unknownType
  | pointer (pointed : Id) (memspace : Nat)
  | array (element : Id) (size : Option Nat)
  | record (name : String)
  | typeError (message : String)
  | function (retty : Id) (args : List Id)
deriving DecidableEq

/-- The types a type is built from. -/
def Node.args : Node → List Id
  | .pointer pointed _ => [pointed]
  | .array element _ => [element]
  | .function retty args => retty :: args
  | _ => []

/-- A node without the types it is built from. -/
def Node.shape : Node → Node
  | .pointer _ memspace => .pointer 0 memspace
  | .array _ size => .array 0 size
  | .function _ args => .function 0 (args.map fun _ => 0)
  | n => n

theorem Node.ext_args {n n' : Node} (hshape : n.shape = n'.shape) (hargs : n.args = n'.args) :
    n = n' := by
  cases n <;> cases n' <;> simp_all [Node.shape, Node.args]

/-- `RecordField`. -/
structure RecordField where
  type : Id
  offset : Nat

variable {S : Type}

/-- The factory, with the registry of record bodies and the structs that were visited. -/
structure Factory (S : Type) where
  objects : List Node
  table : Node → Option Id
  recordBodies : String → Option (List RecordField)
  visitedRecordTypes : List S

namespace Factory

/-- A factory that was not asked for anything. -/
def empty : Factory S where
  objects := []
  table _ := none
  recordBodies _ := none
  visitedRecordTypes := []

/-- What a type is. -/
def node (F : Factory S) (x : Id) : Option Node := F.objects[x]?

/-- `table[key] = Type::Ptr(new T(...))`. -/
def create (F : Factory S) (n : Node) : Id × Factory S :=
  (F.objects.length,
    { F with objects := F.objects ++ [n], table := Function.update F.table n F.objects.length })

/-- The type of a table, made when there is none. -/
def intern (F : Factory S) (n : Node) : Id × Factory S :=
  match F.table n with
  | some existing => (existing, F)
  | none => F.create n

/-- `TypeUtils::isInvalid`. -/
def isInvalid (F : Factory S) (x : Id) : Bool :=
  match F.node x with
  | some (.typeError _) => true
  | _ => false

/-- `TypeUtils::isUnknown`. -/
def isUnknown (F : Factory S) (x : Id) : Bool :=
  F.node x == some .unknownType

/-- `getBool`. -/
def getBool (F : Factory S) : Id × Factory S := F.intern .bool

/-- `getInteger`. -/
def getInteger (F : Factory S) (bitsize : Nat) (sign : Signedness) : Id × Factory S :=
  F.intern (.integer bitsize sign)

/-- `getFloat`. -/
def getFloat (F : Factory S) : Id × Factory S := F.intern .float

/-- `getUnknownType`. -/
def getUnknownType (F : Factory S) : Id × Factory S := F.intern .unknownType

/-- `getPointer`. -/
def getPointer (F : Factory S) (pointed : Id) (memspace : Nat) : Id × Factory S :=
  if F.isInvalid pointed then (pointed, F) else F.intern (.pointer pointed memspace)

/-- `getArray`. -/
def getArray (F : Factory S) (elem : Id) (size : Nat) : Id × Factory S :=
  if F.isInvalid elem then (elem, F)
  else F.intern (.array elem (if size ≠ 0 then some size else none))

/-- `getTypeError`. -/
def getTypeError (F : Factory S) (message : String) : Id × Factory S :=
  F.intern (.typeError message)

/-- `getFunction`. -/
def getFunction (F : Factory S) (retty : Id) (args : List Id) : Id × Factory S :=
  F.intern (.function retty args)

/-- `getRecord` without an LLVM struct. -/
def getRecordByName (F : Factory S) (name : String) : Id × Factory S := F.intern (.record name)

/-- `mergeRecordBodyInto`. -/
def mergeRecordBodyInto (lhv rhv : List RecordField) : List RecordField :=
  if lhv.isEmpty then rhv else lhv

/-- The registry after `mergeRecordBodyInto((*recordBodies)[name], body)`. -/
def embedBody (F : Factory S) (name : String) (body : List RecordField) : Factory S :=
  { F with
    recordBodies := Function.update F.recordBodies name
      (some (mergeRecordBodyInto ((F.recordBodies name).getD []) body)) }

/-- `embedRecordBodyNoRecursion`. -/
def embedRecordBodyNoRecursion (F : Factory S) (name : String) (body : List RecordField) :
    Id × Factory S :=
  (F.embedBody name body).getRecordByName name

/-- `visitedRecordTypes.insert(st)`. -/
def visit (F : Factory S) (st : S) : Factory S :=
  { F with visitedRecordTypes := st :: F.visitedRecordTypes }

end Factory

/-! ## Casting LLVM types -/

/-- `llvm::Type`; a type that `cast` does not support carries its text. -/
inductive LlvmType (S : Type) where
  | void
  | integer (width : Nat)
  | floating
  | pointer (elem : LlvmType S)
  | array (elem : LlvmType S) (size : Nat)
  | vector (elem : LlvmType S) (size : Nat)
  | struct (str : S)
  | metadata
  | function (ret : LlvmType S) (params : List (LlvmType S))
  | other (text : String)

/-- `llvm::StructType` and its layout. -/
structure StructType (S : Type) where
  structName : Option String
  printed : String
  isOpaque : Bool
  elements : List (LlvmType S)
  elementOffset : Nat → Nat

/-- The structs of the module, and `TypeUtils::toString`. -/
structure Env (S : Type) where
  struct : S → StructType S
  toString : Factory S → Id → String

/-- The name `cast` gives to the record of a struct. -/
def Env.name (E : Env S) (str : S) : String :=
  (E.struct str).structName.getD (E.struct str).printed

/-- The body of the record of a struct, made of the types of its elements. -/
def Env.recordBody (E : Env S) (str : S) (types : List Id) : List RecordField :=
  types.zipIdx.map fun (x, ix) => ⟨x, (E.struct str).elementOffset ix⟩

mutual
/-- `cast`, with `getRecord` for the structs. -/
def castWith (getRecord : S → Factory S → Option (Id × Factory S)) :
    LlvmType S → Signedness → Factory S → Option (Id × Factory S)
  | .void, _, F => some F.getUnknownType
  | .integer width, sign, F => some (if width = 1 then F.getBool else F.getInteger width sign)
  | .floating, _, F => some F.getFloat
  | .pointer elem, _, F => do
    let (x, F) ← castWith getRecord elem .unknown F
    some (F.getPointer x 0)
  | .array elem size, _, F => do
    let (x, F) ← castWith getRecord elem .unknown F
    some (F.getArray x size)
  | .vector elem size, _, F => do
    let (x, F) ← castWith getRecord elem .unknown F
    some (F.getArray x size)
  | .struct str, _, F => getRecord str F
  | .metadata, _, F => some F.getUnknownType
  | .function ret params, _, F => do
    let (r, F) ← castWith getRecord ret .unknown F
    let (xs, F) ← castAllWith getRecord params F
    some (F.getFunction r xs)
  | .other text, _, F => some (F.getTypeError ("Unsupported llvm type: " ++ text))

/-- `cast` of several types, one after the other. -/
def castAllWith (getRecord : S → Factory S → Option (Id × Factory S)) :
    List (LlvmType S) → Factory S → Option (List Id × Factory S)
  | [], F => some ([], F)
  | t :: ts, F => do
    let (x, F) ← castWith getRecord t .unknown F
    let (xs, F) ← castAllWith getRecord ts F
    some (x :: xs, F)
end

section Cast

variable [DecidableEq S] (E : Env S)

/-- `getRecord(name, st, dl)`; `none` when the structs are nested deeper than the fuel. -/
def getRecord : Nat → String → S → Factory S → Option (Id × Factory S)
  | 0, _, _, _ => none
  | fuel + 1, name, st, F =>
    match F.table (.record name) with
    | some existing => some (existing, F)
    | none =>
      if (F.recordBodies name).isNone && !F.visitedRecordTypes.contains st then
        let F := F.visit st
        if (E.struct st).isOpaque then
          let (x, F) := F.getUnknownType
          some (x, { F with table := Function.update F.table (.record name) x })
        else do
          let (xs, F) ← castAllWith (fun st => getRecord fuel (E.name st) st)
            (E.struct st).elements F
          let (_, F) := F.embedRecordBodyNoRecursion name (E.recordBody st xs)
          some (F.create (.record name))
      else some (F.create (.record name))

variable [Fintype S]

/-- `cast`. -/
def cast (type : LlvmType S) (sign : Signedness) (F : Factory S) : Option (Id × Factory S) :=
  castWith (fun st => getRecord E (Fintype.card S + 1) (E.name st) st) type sign F

/-! ## Calls -/

/-- The calls that make types. -/
inductive Call (S : Type) where
  | getBool
  | getInteger (bitsize : Nat) (sign : Signedness)
  | getFloat
  | getUnknownType
  | getPointer (pointed : Id) (memspace : Nat)
  | getArray (elem : Id) (size : Nat)
  | getRecord (name : String) (st : Option S)
  | getTypeError (message : String)
  | getFunction (retty : Id) (args : List Id)
  | cast (type : LlvmType S) (sign : Signedness)
  | embedRecordBodyNoRecursion (name : String) (body : List RecordField)

/-- The types that a call is given. -/
def Call.args : Call S → List Id
  | .getPointer pointed _ => [pointed]
  | .getArray elem _ => [elem]
  | .getFunction retty args => retty :: args
  | .embedRecordBodyNoRecursion _ body => body.map RecordField.type
  | _ => []

/-- One call: its result, and the factory afterwards. -/
def step (F : Factory S) : Call S → Option (Id × Factory S)
  | .getBool => some F.getBool
  | .getInteger bitsize sign => some (F.getInteger bitsize sign)
  | .getFloat => some F.getFloat
  | .getUnknownType => some F.getUnknownType
  | .getPointer pointed memspace => some (F.getPointer pointed memspace)
  | .getArray elem size => some (F.getArray elem size)
  | .getRecord name none => some (F.getRecordByName name)
  | .getRecord name (some st) => getRecord E (Fintype.card S + 1) name st F
  | .getTypeError message => some (F.getTypeError message)
  | .getFunction retty args => some (F.getFunction retty args)
  | .cast type sign => cast E type sign F
  | .embedRecordBodyNoRecursion name body => some (F.embedRecordBodyNoRecursion name body)

end Cast

/-- `merge`. -/
def merge (E : Env S) (F : Factory S) (one two : Id) : Id × Factory S :=
  if F.isInvalid one then (one, F)
  else if F.isInvalid two then (two, F)
  else if F.isUnknown one then (two, F)
  else if F.isUnknown two then (one, F)
  else if one = two then (one, F)
  else
    match F.node one, F.node two with
    | some (.integer bitsize _), some (.integer bitsize' _) =>
      F.getInteger (max bitsize bitsize') .unknown
    | some (.pointer _ _), some (.integer _ _) => (one, F)
    | some (.integer _ _), some (.pointer _ _) => (two, F)
    | some (.pointer pointed _), some (.pointer pointed' _) =>
      if pointed = pointed' then (one, F)
      else
        let (unknown, F) := F.getUnknownType
        F.getPointer unknown 0
    | _, _ =>
      F.getTypeError ("Unmergeable types: " ++ E.toString F one ++ " and " ++ E.toString F two)

end TypeFactory

end Borealis
