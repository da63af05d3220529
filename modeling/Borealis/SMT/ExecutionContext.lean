import Borealis.SMT.Logic

/-!
# Execution contexts

The model of `SMT/ExecutionContext.stub.{h,cpp.inc}`: the memory, property and bounds arrays that a
context has created so far, each with the number of stores it has seen, the arrays it started from,
the two allocation counters, and the axioms it collected.  Bounds are read and written in the mode
without `craig-colton-bounds`.

Arrays are created by whoever asks for them first.  `get` is `const` in the source but creates the
array it is asked for, so it gives back the context as well.  The fresh constants that an operation
makes are named after the number of the operation.
-/

namespace Borealis

namespace SMT

variable {V : Type}

/-! ## Arrays with versions -/

/-- An array and the number of stores since its version was last reset. -/
structure MemArrayWithVersion (V : Type) where
  mem : MemArray V
  version : ℕ

namespace MemArrayWithVersion

def store (a : MemArrayWithVersion V) (i : Assignment V → Pointer) (e : AnyBitVector V) :
    MemArrayWithVersion V :=
  ⟨a.mem.store i e, a.version + 1⟩

/-- The greatest version of the default and the alternatives. -/
def maxVersion (deflt : MemArrayWithVersion V)
    (alts : List ((Assignment V → Bool) × MemArrayWithVersion V)) : ℕ :=
  alts.foldl (fun v alt => max v alt.2.version) deflt.version

/-- `merge`: when no alternative has a greater version than the default, this is the default. -/
def merge (deflt : MemArrayWithVersion V)
    (alts : List ((Assignment V → Bool) × MemArrayWithVersion V)) : MemArrayWithVersion V :=
  if deflt.version = deflt.maxVersion alts then deflt
  else ⟨switch (alts.map fun alt => (alt.1, alt.2.mem)) deflt.mem, deflt.maxVersion alts + 1⟩

end MemArrayWithVersion

/-! ## Contexts -/

/-- The identifier of the memory array of a memory space. -/
def memoryId (memspace : ℕ) : String := "$$__memory__$$" ++ toString memspace

/-- The identifier of the bounds array of a memory space. -/
def gepBoundsId (memspace : ℕ) : String := "$$__gep_bound__$$" ++ toString memspace

theorem memoryId_ne_gepBoundsId (memspace memspace' : ℕ) :
    memoryId memspace ≠ gepBoundsId memspace' := by
  intro h
  unfold memoryId gepBoundsId at h
  rw [String.ext_iff, String.toList_append, String.toList_append] at h
  have hfirst := congrArg (List.take 5) h
  rw [List.take_append_of_le_length (by decide +kernel),
    List.take_append_of_le_length (by decide +kernel)] at hfirst
  exact absurd hfirst (by decide +kernel)

/-- The constructor records an array under an identifier that no memory space has. -/
theorem memoryId_ne_initial (memspace : ℕ) : memoryId memspace ≠ "$$__memory__$$" := by
  intro h
  unfold memoryId at h
  rw [String.ext_iff, String.toList_append, List.append_right_eq_self, Nat.toString_eq_repr,
    Nat.toList_repr] at h
  exact Nat.toDigits_ne_nil h

theorem gepBoundsId_injective {memspace memspace' : ℕ}
    (h : gepBoundsId memspace = gepBoundsId memspace') : memspace = memspace' := by
  unfold gepBoundsId at h
  rw [String.append_right_inj, Nat.toString_eq_repr, Nat.toString_eq_repr, String.ext_iff,
    Nat.toList_repr, Nat.toList_repr] at h
  have hdigits := congrArg (fun digits => Nat.ofDigitChars 10 digits 0) h
  rwa [Nat.ofDigitChars_toDigits (by decide) (by decide),
    Nat.ofDigitChars_toDigits (by decide) (by decide)] at hdigits

structure ExecutionContext (V : Type) where
  memArrays : String → Option (MemArrayWithVersion V)
  initialMemArrays : String → Option (MemArrayWithVersion V)
  globalPtr : BitVec 64
  localPtr : BitVec 64
  localMemoryStart : BitVec 64
  localMemoryEnd : BitVec 64
  contextAxioms : List (Assignment V → Prop)

namespace ExecutionContext

variable (unknown : Bool)

/-- `emplace`: an entry that is there stays. -/
def emplace (arrays : String → Option (MemArrayWithVersion V)) (id : String)
    (value : MemArrayWithVersion V) : String → Option (MemArrayWithVersion V) :=
  match arrays id with
  | some _ => arrays
  | none => Function.update arrays id (some value)

/-- The array that `get` finds, or creates as the `index`-th of an operation. -/
def peek (ctx : ExecutionContext V) (operation index : ℕ) (id : String) : MemArrayWithVersion V :=
  (ctx.memArrays id).getD ⟨getNoMemoryArray unknown operation id index, 0⟩

/-- The context after `get`. -/
def touch (ctx : ExecutionContext V) (operation : ℕ) (id : String) : ExecutionContext V :=
  match ctx.memArrays id with
  | some _ => ctx
  | none =>
    let mem := ⟨getNoMemoryArray unknown operation id 0, 0⟩
    { ctx with
      memArrays := emplace ctx.memArrays id mem
      initialMemArrays := emplace ctx.initialMemArrays id mem }

/-- `get`. -/
def get (ctx : ExecutionContext V) (operation : ℕ) (id : String) :
    MemArrayWithVersion V × ExecutionContext V :=
  (ctx.peek unknown operation 0 id, ctx.touch unknown operation id)

/-- `set`. -/
def set (ctx : ExecutionContext V) (id : String) (value : MemArrayWithVersion V) :
    ExecutionContext V :=
  { ctx with memArrays := Function.update ctx.memArrays id (some value) }

/-- The bounds array of a memory space as `initGepBounds` makes it: the null pointer has bound
minus one, nothing else is known. -/
def freshBounds (operation : ℕ) (memspace : ℕ) : MemArrayWithVersion V :=
  MemArrayWithVersion.store
    ⟨getEmptyMemoryArray operation (gepBoundsId memspace) 0, 0⟩
    (fun _ => getNullPtr) (getIntConst (-1))

/-- `initGepBounds` where the array is not there yet, as in each of its calls. -/
def initGepBounds (ctx : ExecutionContext V) (operation memspace : ℕ) : ExecutionContext V :=
  ctx.set (gepBoundsId memspace) (freshBounds operation memspace)

/-- `gepBounds`. -/
def gepBounds (ctx : ExecutionContext V) (operation memspace : ℕ) :
    MemArrayWithVersion V × ExecutionContext V :=
  match ctx.memArrays (gepBoundsId memspace) with
  | some bounds => (bounds, ctx)
  | none => (freshBounds operation memspace, ctx.initGepBounds operation memspace)

/-- The constructor. -/
def init (operation : ℕ) (localMemoryStart localMemoryEnd : BitVec 64) : ExecutionContext V :=
  let ctx : ExecutionContext V := {
    memArrays := fun _ => none
    initialMemArrays := emplace (fun _ => none) "$$__memory__$$"
      ⟨getNoMemoryArray unknown operation "$$__memory__$$" 0, 0⟩
    globalPtr := 1
    localPtr := localMemoryStart
    localMemoryStart
    localMemoryEnd
    contextAxioms := [] }
  ctx.initGepBounds operation 0

/-! ## What is in the maps -/

theorem emplace_self {arrays : String → Option (MemArrayWithVersion V)} {id : String}
    (h : arrays id = none) (value : MemArrayWithVersion V) :
    emplace arrays id value id = some value := by
  unfold emplace
  rw [h]
  exact Function.update_self id (some value) arrays

theorem emplace_of_ne {id id' : String} (hne : id' ≠ id)
    (arrays : String → Option (MemArrayWithVersion V)) (value : MemArrayWithVersion V) :
    emplace arrays id value id' = arrays id' := by
  unfold emplace
  cases arrays id with
  | some a => rfl
  | none => exact Function.update_of_ne hne (some value) arrays

theorem emplace_of_some {arrays : String → Option (MemArrayWithVersion V)} {id id' : String}
    {a : MemArrayWithVersion V} (h : arrays id = some a) (value : MemArrayWithVersion V) :
    emplace arrays id' value id = some a := by
  by_cases hne : id = id'
  · subst hne
    unfold emplace
    rw [h]
    exact h
  · rw [emplace_of_ne hne]
    exact h

/-- What is in a map after `emplace` was there before, or is the new value. -/
theorem of_emplace {arrays : String → Option (MemArrayWithVersion V)} {id id' : String}
    {value a : MemArrayWithVersion V} (h : emplace arrays id value id' = some a) :
    arrays id' = some a ∨ a = value := by
  by_cases hne : id' = id
  · subst hne
    cases hid : arrays id' with
    | some b =>
        rw [emplace_of_some hid] at h
        exact Or.inl h
    | none =>
        rw [emplace_self hid] at h
        exact Or.inr (Option.some.inj h).symm
  · rw [emplace_of_ne hne] at h
    exact Or.inl h

theorem set_self (ctx : ExecutionContext V) (id : String) (value : MemArrayWithVersion V) :
    (ctx.set id value).memArrays id = some value := by
  unfold set
  exact Function.update_self _ _ _

theorem set_of_ne {id id' : String} (hne : id' ≠ id) (ctx : ExecutionContext V)
    (value : MemArrayWithVersion V) : (ctx.set id value).memArrays id' = ctx.memArrays id' := by
  unfold set
  exact Function.update_of_ne hne _ _

/-- After `get` the array that it gave back is there. -/
theorem touch_self (ctx : ExecutionContext V) (operation : ℕ) (id : String) :
    (ctx.touch unknown operation id).memArrays id = some (ctx.peek unknown operation 0 id) := by
  unfold touch peek
  cases hid : ctx.memArrays id with
  | some a => exact hid
  | none => exact emplace_self hid _

theorem touch_of_ne {id id' : String} (hne : id' ≠ id) (ctx : ExecutionContext V)
    (operation : ℕ) :
    (ctx.touch unknown operation id).memArrays id' = ctx.memArrays id' ∧
      (ctx.touch unknown operation id).initialMemArrays id' = ctx.initialMemArrays id' := by
  unfold touch
  cases ctx.memArrays id with
  | some a => exact ⟨rfl, rfl⟩
  | none => exact ⟨emplace_of_ne hne _ _, emplace_of_ne hne _ _⟩

theorem touch_of_some {ctx : ExecutionContext V} {id : String} {a : MemArrayWithVersion V}
    (h : ctx.memArrays id = some a) (operation : ℕ) : ctx.touch unknown operation id = ctx := by
  unfold touch
  rw [h]

theorem touch_of_none {ctx : ExecutionContext V} {id : String} (h : ctx.memArrays id = none)
    (operation : ℕ) : ctx.touch unknown operation id =
      { ctx with
        memArrays := emplace ctx.memArrays id ⟨getNoMemoryArray unknown operation id 0, 0⟩
        initialMemArrays :=
          emplace ctx.initialMemArrays id ⟨getNoMemoryArray unknown operation id 0, 0⟩ } := by
  unfold touch
  rw [h]

theorem init_of_ne {id : String} (hne : id ≠ gepBoundsId 0) (operation : ℕ)
    (localMemoryStart localMemoryEnd : BitVec 64) :
    (init (V := V) unknown operation localMemoryStart localMemoryEnd).memArrays id = none := by
  unfold init initGepBounds
  rw [set_of_ne hne]

theorem init_initialMemArrays (operation : ℕ) (localMemoryStart localMemoryEnd : BitVec 64) :
    (init (V := V) unknown operation localMemoryStart localMemoryEnd).initialMemArrays =
      emplace (fun _ => none) "$$__memory__$$"
        ⟨getNoMemoryArray unknown operation "$$__memory__$$" 0, 0⟩ :=
  rfl

theorem gepBounds_of_ne {memspace : ℕ} {id : String} (hne : id ≠ gepBoundsId memspace)
    (ctx : ExecutionContext V) (operation : ℕ) :
    (ctx.gepBounds operation memspace).2.memArrays id = ctx.memArrays id := by
  unfold gepBounds
  cases ctx.memArrays (gepBoundsId memspace) with
  | some a => rfl
  | none => exact set_of_ne hne _ _

theorem gepBounds_initialMemArrays (ctx : ExecutionContext V) (operation memspace : ℕ) :
    (ctx.gepBounds operation memspace).2.initialMemArrays = ctx.initialMemArrays := by
  unfold gepBounds
  cases ctx.memArrays (gepBoundsId memspace) <;> rfl

/-! ## Reading and writing -/

/-- `memory(memspace)` and `get`, for a value that is not used here. -/
def readExprFromMemory (ctx : ExecutionContext V) (operation memspace : ℕ) : ExecutionContext V :=
  (ctx.get unknown operation (memoryId memspace)).2

/-- `set(id, get(id).store(ix, val))`. -/
def writeProperty (ctx : ExecutionContext V) (operation : ℕ) (id : String)
    (ix : Assignment V → Pointer) (val : AnyBitVector V) : ExecutionContext V :=
  let (a, ctx) := ctx.get unknown operation id
  ctx.set id (a.store ix val)

/-- `writeExprToMemory`. -/
def writeExprToMemory (ctx : ExecutionContext V) (operation : ℕ) (ix : Assignment V → Pointer)
    (val : AnyBitVector V) (memspace : ℕ) : ExecutionContext V :=
  ctx.writeProperty unknown operation (memoryId memspace) ix val

/-- The axiom of a range write: inside of the range, in the signed order, the new memory holds the
value, and outside what the current one holds. -/
def rangeAxiom (newMem currentMemory : MemArray V) (start : ValueExpr V Pointer)
    (size : BitVec 64) (val : ValueExpr V Byte) : Assignment V → Prop := fun ρ =>
  (∀ inner : Pointer,
    if (start.expr ρ).sle inner ∧ inner.slt (start.expr ρ + size) then newMem ρ inner = val.expr ρ
    else newMem ρ inner = currentMemory ρ inner) ∧
  start.axioms ρ ∧ val.axioms ρ

/-- `writeExprRangeToMemory`: the memory becomes a fresh array with an axiom about it. -/
def writeExprRangeToMemory (ctx : ExecutionContext V) (operation : ℕ)
    (start : ValueExpr V Pointer) (size : BitVec 64) (val : ValueExpr V Byte) (memspace : ℕ) :
    ExecutionContext V :=
  let id := memoryId memspace
  let (currentMemory, ctx) := ctx.get unknown operation id
  let newMem := getEmptyMemoryArray operation id 1
  let ctx := { ctx with
    contextAxioms := rangeAxiom newMem currentMemory.mem start size val :: ctx.contextAxioms }
  ctx.set id ⟨newMem, currentMemory.version + 1⟩

/-- `getInitialMemoryContents`. -/
def getInitialMemoryContents (ctx : ExecutionContext V) (operation memspace : ℕ) : MemArray V :=
  match ctx.initialMemArrays (memoryId memspace) with
  | some a => a.mem
  | none => (ctx.peek unknown operation 0 (memoryId memspace)).mem

/-! ## Bounds -/

/-- The axiom that the bound of a pointer has this value. -/
def boundAxiom (bounds : MemArray V) (p : Assignment V → Pointer) (bound : AnyBitVector V) :
    Assignment V → Prop := fun ρ =>
  bounds.select p bound.bitSize ρ = bound.expr ρ ∧ bound.axioms ρ

/-- `writeBound`. -/
def writeBound (ctx : ExecutionContext V) (operation : ℕ) (p : Assignment V → Pointer)
    (bound : AnyBitVector V) (memspace : ℕ) : ExecutionContext V :=
  let (bounds, ctx) := ctx.gepBounds operation memspace
  { ctx with contextAxioms := boundAxiom bounds.mem p bound :: ctx.contextAxioms }

/-- The size that is written as the bound when no other is given. -/
def defaultBound (offsetSize : BitVec 64) : AnyBitVector V :=
  getIntConst (offsetSize.setWidth 32)

/-- `getGlobalPtr`: the pointer that is handed out is `getPtrConst(globalPtr)`. -/
def getGlobalPtr (ctx : ExecutionContext V) (operation memspace : ℕ) (offsetSize : BitVec 64)
    (origSize : AnyBitVector V) : ExecutionContext V :=
  let ret := getPtrConst ctx.globalPtr
  let ctx := { ctx with globalPtr := ctx.globalPtr + 2 * offsetSize }
  ctx.writeBound operation (fun _ => ret) origSize memspace

/-- `getLocalPtr`: the pointer that is handed out is `getPtrConst(localPtr)`. -/
def getLocalPtr (ctx : ExecutionContext V) (operation memspace : ℕ) (offsetSize : BitVec 64)
    (origSize : AnyBitVector V) : ExecutionContext V :=
  let ret := getPtrConst ctx.localPtr
  let ctx := { ctx with localPtr := ctx.localPtr + 2 * offsetSize }
  ctx.writeBound operation (fun _ => ret) origSize memspace

/-! ## Branches -/

/-- `std::max` of two counters. -/
def maxCounter (a b : BitVec 64) : BitVec 64 :=
  if a < b then b else a

/-- The context has created this array. -/
def holds (ctx : ExecutionContext V) (id : String) : Bool :=
  (ctx.memArrays id).isSome

/-- The identifiers that the merge of contexts goes through. -/
def activeIn (defaultContext : ExecutionContext V)
    (contexts : List ((Assignment V → Bool) × ExecutionContext V)) (id : String) : Bool :=
  defaultContext.holds id || contexts.any fun e => e.2.holds id

/-- The axioms of all contexts together; those of the default context do not count. -/
def mergedAxioms (contexts : List ((Assignment V → Bool) × ExecutionContext V)) :
    List (Assignment V → Prop) :=
  contexts.flatMap fun e => e.2.contextAxioms

/-- The arrays that an operation finds in the branches. -/
def alternatives (operation : ℕ) (contexts : List ((Assignment V → Bool) × ExecutionContext V))
    (id : String) : List ((Assignment V → Bool) × MemArrayWithVersion V) :=
  contexts.zipIdx.map fun e => (e.1.1, e.1.2.peek unknown operation (e.2 + 1) id)

/-- What `mergeMemory` and `externalMergeMemory` have in common: a new context, made by the
constructor, with the greatest counters of the branches. -/
def mergeCounters (operation : ℕ) (contexts : List ((Assignment V → Bool) × ExecutionContext V)) :
    ExecutionContext V :=
  let res := init unknown operation 0 0
  { res with
    globalPtr := contexts.foldl (fun p e => maxCounter p e.2.globalPtr) res.globalPtr
    localPtr := contexts.foldl (fun p e => maxCounter p e.2.localPtr) res.localPtr
    contextAxioms := mergedAxioms contexts }

/-- `mergeMemory`. -/
def mergeMemory (operation : ℕ) (defaultContext : ExecutionContext V)
    (contexts : List ((Assignment V → Bool) × ExecutionContext V)) : ExecutionContext V :=
  let res := mergeCounters unknown operation contexts
  { res with
    memArrays := fun id =>
      if defaultContext.activeIn contexts id then
        some ((defaultContext.peek unknown (operation + 1) 0 id).merge
          (alternatives unknown (operation + 1) contexts id))
      else res.memArrays id }

/-- `externalMergeMemory`. -/
def externalMergeMemory (operation : ℕ) (defaultContext : ExecutionContext V)
    (contexts : List ((Assignment V → Bool) × ExecutionContext V)) (pfix : String) :
    ExecutionContext V :=
  let res := mergeCounters unknown operation contexts
  { res with
    memArrays := fun id =>
      if defaultContext.activeIn contexts id then
        some ⟨MemArray.mkArray (.var (id ++ pfix)), 0⟩
      else res.memArrays id }

/-- What a context takes over from the merged one: neither the initial arrays nor the region. -/
def takeOver (ctx merged : ExecutionContext V) : ExecutionContext V :=
  { ctx with
    memArrays := merged.memArrays
    globalPtr := merged.globalPtr
    localPtr := merged.localPtr
    contextAxioms := merged.contextAxioms }

/-- `switchOn`. -/
def switchOn (ctx : ExecutionContext V) (operation : ℕ)
    (contexts : List ((Assignment V → Bool) × ExecutionContext V)) : ExecutionContext V :=
  ctx.takeOver (mergeMemory unknown operation ctx contexts)

/-- `externalSwitchOn`. -/
def externalSwitchOn (ctx : ExecutionContext V) (operation : ℕ)
    (contexts : List ((Assignment V → Bool) × ExecutionContext V)) (pfix : String) :
    ExecutionContext V :=
  ctx.takeOver (externalMergeMemory unknown operation ctx contexts pfix)

/-- `externalizeEverythingMutable`; the equalities that it returns are not kept in the context. -/
def externalizeEverythingMutable (ctx : ExecutionContext V) (pfix : String) : ExecutionContext V :=
  { ctx with
    memArrays := fun id =>
      (ctx.memArrays id).map fun _ => ⟨MemArray.mkArray (.var (id ++ pfix)), 0⟩ }

end ExecutionContext

end SMT

end Borealis
