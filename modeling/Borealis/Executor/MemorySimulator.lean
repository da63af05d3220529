import Borealis.Executor.SegmentTree

/-!
# The memory simulator

`Executor/MemorySimulator.cpp`: the stack and heap allocators over one segment tree.  Each hands
out addresses of its region in increasing order, rounded to a power-of-two multiple of the chunk
size.  The constant space below the tree and the memory of global variables take no part in these
operations.
-/

namespace Borealis

/-- `MemorySimulator::MallocFill`. -/
inductive MallocFill where
  | uninit | zero
deriving DecidableEq, Repr

/-- The state of the memory `MallocMemory` returns. -/
def MallocFill.memState : MallocFill → MemoryState
  | .uninit => .uninit
  | .zero => .memset

/-- The loop of `calc_real_memory_amount`: `chunk_size` doubles until it reaches `amount`. -/
def growChunk (amount : ℕ) : (fuel : ℕ) → (chunkSize : ℕ) → Except Fault ℕ
  | 0, _ => .error .diverges
  | fuel + 1, chunkSize =>
    if amount > chunkSize then growChunk amount fuel (chunkSize * 2 % 2 ^ 64)
    else .ok chunkSize

/-- `calc_real_memory_amount`. -/
def calcRealMemoryAmount (amount chunkSize : ℕ) : Except Fault ℕ :=
  if amount ≥ 2 ^ 63 then .error (.outOfMemory amount)
  else growChunk amount 65 chunkSize

/-- `MemorySimulator::Impl`. -/
structure MemorySimulator where
  tree : SegmentTree
  allocStart : ℕ
  allocEnd : ℕ
  mallocStart : ℕ
  mallocEnd : ℕ
  currentAllocOffset : ℕ
  currentMallocOffset : ℕ

namespace MemorySimulator

/-- `Impl::Impl`; `chunkSize` is the grain of the data layout times `memory-chunk-multiplier`,
`power` is `memory-power`. -/
def init (chunkSize power : ℕ) : MemorySimulator :=
  let start := 2 ^ 20
  let stop := ptrAdd start (2 ^ power * chunkSize)
  let half := ptrAdd start (ptrSub stop start / 2)
  { tree := { start, stop, chunkSize }
    allocStart := start
    allocEnd := half
    mallocStart := half
    mallocEnd := stop
    currentAllocOffset := 0
    currentMallocOffset := 0 }

/-- The next address of a region that starts at `base` and is used up to `offset`, rounded up to
a multiple of `realAmount`. -/
def nextPtr (base offset realAmount : ℕ) : ℕ :=
  if offset % realAmount = 0 then ptrAdd base offset
  else ptrAdd base ((offset / realAmount + 1) * realAmount)

/-- `AllocateMemory` and `MallocMemory` up to the region they use: the address of the new block, the
tree and the offset up to which the region is used. -/
def allocateIn (tree : SegmentTree) (base offset amount : ℕ) (state : MemoryState)
    (status : MemoryStatus) : Except Fault ℕ × SegmentTree × ℕ :=
  match calcRealMemoryAmount amount tree.chunkSize with
  | .error e => (.error e, tree, offset)
  | .ok realAmount =>
    let ptr := nextPtr base offset realAmount
    match tree.allocate ptr amount state status with
    | (.error e, tree) => (.error e, tree, offset)
    | (.ok _, tree) => (.ok ptr, tree, ptrSub (ptrAdd ptr realAmount) base)

/-- `AllocateMemory`. -/
def allocateMemory (m : MemorySimulator) (amount : ℕ) : Except Fault ℕ × MemorySimulator :=
  let (result, tree, offset) :=
    allocateIn m.tree m.allocStart m.currentAllocOffset amount .uninit .alloca
  (result, { m with tree, currentAllocOffset := offset })

/-- `MallocMemory`. -/
def mallocMemory (m : MemorySimulator) (amount : ℕ) (fillWith : MallocFill) :
    Except Fault ℕ × MemorySimulator :=
  let (result, tree, offset) :=
    allocateIn m.tree m.mallocStart m.currentMallocOffset amount fillWith.memState .malloc
  (result, { m with tree, currentMallocOffset := offset })

/-- `isAPointer`; the constant space is `[2 ^ 10, 2 ^ 20)` and `unmeaningfulPtr` is `2 ^ 8`. -/
def isAPointer (m : MemorySimulator) (addr : ℕ) : Bool :=
  decide (2 ^ 10 ≤ addr ∧ addr < 2 ^ 20) ||
    decide (m.mallocStart ≤ addr ∧ addr < m.mallocEnd) ||
    decide (m.allocStart ≤ addr ∧ addr < m.allocEnd) || decide (addr = 2 ^ 8)

/-- `DeallocateMemory` and `FreeMemory` up to the status of the block. -/
def release (m : MemorySimulator) (addr : ℕ) (status : MemoryStatus) :
    Except Fault Unit × MemorySimulator :=
  if !m.isAPointer addr then (.error (.illegalFree addr), m)
  else
    let (result, tree) := m.tree.free addr status
    (result, { m with tree })

/-- `DeallocateMemory`. -/
def deallocateMemory (m : MemorySimulator) (addr : ℕ) : Except Fault Unit × MemorySimulator :=
  m.release addr .alloca

/-- `FreeMemory`. -/
def freeMemory (m : MemorySimulator) (addr : ℕ) : Except Fault Unit × MemorySimulator :=
  m.release addr .malloc

/-- `SegmentTree::store` on the tree of the simulator. -/
def store (m : MemorySimulator) (addr : ℕ) (data : List UInt8) :
    Except Fault Unit × MemorySimulator :=
  let (result, tree) := m.tree.store addr data
  (result, { m with tree })

/-- `SegmentTree::memset` on the tree of the simulator. -/
def memset (m : MemorySimulator) (addr : ℕ) (fill : UInt8) (size : ℕ) :
    Except Fault Unit × MemorySimulator :=
  let (result, tree) := m.tree.memset addr fill size
  (result, { m with tree })

end MemorySimulator

end Borealis
