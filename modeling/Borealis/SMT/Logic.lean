import Mathlib.Data.BitVec
import Mathlib.Logic.Function.Basic

/-!
# Expressions of the solver

The part of `SMT/Logic.stub.hpp` that the execution context builds on, for the Z3 back end: pointers
and memory cells are 64 bits wide and a memory is a `ScatterArray` over a `TheoryArray`.

An expression is what it evaluates to under an assignment of the solver's variables and arrays.  A
fresh array constant is told apart from every other by the number of the operation that asks for it,
the identifier it was asked for under, and an index.  An expression keeps its axioms next to it;
`select` and `store` drop the axioms of the array and of the index.
-/

namespace Borealis

namespace SMT

abbrev Pointer := BitVec 64

abbrev Byte := BitVec 64

/-- The array constants: those of `mkVar`, and those of `mkFree`, which are all different. -/
inductive ArrayName
  | var (name : String)
  | free (operation : ℕ) (id : String) (index : ℕ)
deriving DecidableEq

/-- A value for every variable and every array constant of the solver. -/
structure Assignment (V : Type) where
  var : String → V
  array : ArrayName → Pointer → Byte

variable {V : Type}

/-- An expression and the axioms that go with it. -/
structure ValueExpr (V α : Type) where
  expr : Assignment V → α
  axioms : Assignment V → Prop

/-- A bit vector whose size is known but not fixed. -/
structure AnyBitVector (V : Type) where
  bitSize : ℕ
  expr : Assignment V → BitVec bitSize
  axioms : Assignment V → Prop

/-- A constant, which needs no axioms. -/
def AnyBitVector.mkConst (size : ℕ) (value : BitVec size) : AnyBitVector V :=
  ⟨size, fun _ => value, fun _ => True⟩

/-- The cells that a bit vector is stored in, the lowest first. -/
def splitBytes {width : ℕ} (bv : BitVec width) : List Byte :=
  if width ≤ 64 then [bv.signExtend 64]
  else (List.range ((width - 1) / 64 + 1)).map fun j =>
    (bv.extractLsb (min (64 * j + 63) (width - 1)) (64 * j)).signExtend 64

/-- The number that a list of cells stands for, the lowest first. -/
def concatBytes (bytes : List Byte) : ℕ :=
  bytes.foldr (fun byte rest => byte.toNat + 2 ^ 64 * rest) 0

/-- The number of cells that a value of this many bits takes. -/
def cellsOf (bitSize : ℕ) : ℕ :=
  (bitSize - 1) / 64 + 1

/-- `ScatterArray`. -/
abbrev MemArray (V : Type) := Assignment V → Pointer → Byte

namespace MemArray

/-- `select` with the size of the element. -/
def select (a : MemArray V) (i : Assignment V → Pointer) (elemBitSize : ℕ) :
    Assignment V → BitVec elemBitSize := fun ρ =>
  BitVec.ofNat elemBitSize
    (concatBytes ((List.range (cellsOf elemBitSize)).map fun j => a ρ (i ρ + BitVec.ofNat 64 j)))

/-- `store`, the cells one after the other. -/
def store (a : MemArray V) (i : Assignment V → Pointer) (e : AnyBitVector V) : MemArray V :=
  fun ρ => (splitBytes (e.expr ρ)).zipIdx.foldl
    (fun mem cell => Function.update mem (i ρ + BitVec.ofNat 64 cell.2) cell.1) (a ρ)

/-- The array that holds one value everywhere. -/
def mkDefault (value : Byte) : MemArray V := fun _ _ => value

/-- An array constant. -/
def mkArray (name : ArrayName) : MemArray V := fun ρ => ρ.array name

end MemArray

/-- `switch_` over conditions: of the cases whose condition is true, the last one counts. -/
def switch (cases : List ((Assignment V → Bool) × MemArray V)) (default : MemArray V) :
    MemArray V := fun ρ =>
  cases.foldl (fun b a => if a.1 ρ then a.2 ρ else b) (default ρ)

/-- `getIntConst` of an `int`, as wide as a cell. -/
def getIntConst (v : BitVec 32) : AnyBitVector V :=
  AnyBitVector.mkConst 64 (v.signExtend 64)

/-- `getPtrConst`: the parameter is an `int`. -/
def getPtrConst (ptr : BitVec 64) : Pointer :=
  (ptr.setWidth 32).signExtend 64

/-- `getNullPtr`. -/
def getNullPtr : Pointer := 0

/-- `getEmptyMemoryArray`: a fresh array constant. -/
def getEmptyMemoryArray (operation : ℕ) (id : String) (index : ℕ) : MemArray V :=
  MemArray.mkArray (.free operation id index)

/-- `getNoMemoryArray`, by the setting `memory-defaults-to-unknown`. -/
def getNoMemoryArray (defaultsToUnknown : Bool) (operation : ℕ) (id : String) (index : ℕ) :
    MemArray V :=
  if defaultsToUnknown then getEmptyMemoryArray operation id index else MemArray.mkDefault 0xff

end SMT

end Borealis
