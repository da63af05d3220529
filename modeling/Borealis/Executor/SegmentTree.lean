import Borealis.Executor.SegmentNode

/-!
# The segment tree

`Executor/MemorySimulator/SegmentTreeImpl.cpp`: the traversers and the operations of
`SegmentTree`.  An address argument named `where` in the source is `addr` here, and the field
`end` is `stop`.
-/

namespace Borealis

/-! ## Traversers -/

/-- What both handlers of `allocTraverser` do to the node they allocate. -/
def SegmentNode.allocate (n : SegmentNode) (state : MemoryState) (status : MemoryStatus)
    (size : ℕ) : SegmentNode :=
  { n with
    reallyAllocated := size
    state
    memSetTo := if state = .memset then 0 else n.memSetTo
    status }

/-- `allocTraverser`. -/
def allocTraverser (state : MemoryState) (status : MemoryStatus) (size : ℕ) : Traverser Unit where
  handleEmptyNode _ := .ok ()
  handleGo := forceChildrenAndDeriveState
  handleChunk chunkSize minbound maxbound n left right _ _ :=
    if size ≤ maxbound - minbound ∧ size ≤ chunkSize then
      (.ok (), .node (n.allocate state status size) left right)
    else (.error .assertion, .node n left right)
  handlePath _ _ minbound maxbound n left right addr _ :=
    let available := maxbound - minbound
    if ¬ size ≤ available then .done (.error .assertion) (.node n left right)
    else if minbound = addr ∧ available / 2 < size ∧ size ≤ available then
      .done (.ok ()) (.node (n.allocate state status size) left right)
    else .descend ()

/-- The data left to store and the flag `didAlloc` of a `storeTraverser`. -/
structure StoreState where
  data : List UInt8
  didAlloc : Bool := false

/-- `storeTraverser::checkAllocation`. -/
def checkAllocation (n : SegmentNode) (minbound addr : ℕ) (s : StoreState) :
    Except Fault StoreState :=
  if n.status ≠ .unallocated then
    if s.didAlloc then
      .error (.inconsistency "Allocated segment inside other allocated segment detected")
    else if ptrAdd addr s.data.length > ptrAdd minbound n.reallyAllocated then
      .error (.illegalStore addr)
    else .ok { s with didAlloc := true }
  else .ok s

/-- `storeTraverser`. -/
def storeTraverser : Traverser StoreState where
  handleEmptyNode _ := .ok ()
  handleGo := forceChildrenAndDeriveState
  handleChunk chunkSize minbound _ n left right addr s :=
    match checkAllocation n minbound addr s with
    | .error e => (.error e, .node n left right)
    | .ok s =>
      if ¬ s.data.length ≤ chunkSize then (.error .assertion, .node n left right)
      else if ¬ s.didAlloc then
        (.error (.illegalStore addr), .node { n with state := .unknown } left right)
      else
        let chunk := (n.chunk.getD Chunk.fresh).memcpy (addr - minbound) s.data
        (.ok s, .node { n with state := .unknown, chunk := some chunk } left right)
  handlePath visitLeft visitRight minbound maxbound n left right addr s :=
    let mid := middle minbound maxbound
    match checkAllocation n minbound addr s with
    | .error e => .done (.error e) (.node n left right)
    | .ok s =>
      if addr < mid ∧ mid < ptrAdd addr s.data.length then
        let leftChunkSize := mid - addr
        let (n, left, right) := forceChildrenAndDeriveState n left right
        match visitLeft { s with data := s.data.take leftChunkSize } addr left with
        | (.error e, left) => .done (.error e) (.node n left right)
        | (.ok _, left) =>
          match visitRight { s with data := s.data.drop leftChunkSize } mid right with
          | (.error e, right) => .done (.error e) (.node n left right)
          | (.ok _, right) => .done (.ok s) (.node n left right)
      else .descend s

/-- `SegmentTree::intervalState`.  `data` is null, or points at an offset into the buffer of a
chunk; the chunk may itself have no buffer. -/
structure IntervalState where
  data : Option (Option Chunk × ℕ)
  memState : MemoryState
  filledWith : UInt8

/-- The fields of a `loadTraverser` that its callers read. -/
structure LoadState where
  ptr : Option (Option Chunk × ℕ) := none
  dataSize : ℕ := 0
  state : MemoryState := .unknown
  filledWith : UInt8 := 0xFF

/-- `loadTraverser::handleMemState`. -/
def handleMemState (n : SegmentNode) (s : LoadState) : Option LoadState :=
  if n.state ≠ .unknown then some { s with state := n.state, filledWith := n.memSetTo }
  else none

/-- `loadTraverser`. -/
def loadTraverser : Traverser LoadState where
  handleEmptyNode addr := .error (.illegalLoad addr)
  handleGo := stay
  handleChunk _ minbound maxbound n left right addr s :=
    let s := (handleMemState n s).getD { s with ptr := some (n.chunk, addr - minbound) }
    (.ok { s with dataSize := maxbound - addr }, .node n left right)
  handlePath _ _ _ maxbound n left right addr s :=
    match handleMemState n s with
    | some s => .done (.ok { s with dataSize := maxbound - addr }) (.node n left right)
    | none => .descend s

/-- `freeTraverser`. -/
def freeTraverser (desiredStatus : MemoryStatus) : Traverser Unit where
  handleEmptyNode addr := .error (.illegalFree addr)
  handleGo := stay
  handleChunk _ minbound _ n left right addr _ :=
    if minbound = addr ∧ n.status = desiredStatus then (.ok (), .null)
    else (.ok (), .node n left right)
  handlePath _ _ minbound _ n _ _ addr _ :=
    if minbound = addr ∧ n.status = desiredStatus then .done (.ok ()) .null
    else .descend ()

/-- The fields `dest` and `size` of a `memsetTraverser`. -/
structure MemsetState where
  dest : ℕ
  size : ℕ

/-- `memsetTraverser`. -/
def memsetTraverser (fill : UInt8) : Traverser MemsetState where
  handleEmptyNode _ := .ok ()
  handleGo := forceChildrenAndDeriveState
  handleChunk chunkSize minbound maxbound n left right addr s :=
    if s.size = chunkSize then
      (.ok s, .node { n with state := .memset, memSetTo := fill, chunk := none } left right)
    else if s.size ≤ chunkSize then
      if ¬ ptrAdd addr s.size < maxbound then (.error .assertion, .node n left right)
      else
        let chunk := (n.chunk.getD Chunk.fresh).memset (addr - minbound) fill s.size
        (.ok s, .node { n with state := .unknown, chunk := some chunk } left right)
    else (.ok s, .node n left right)
  handlePath visitLeft visitRight minbound maxbound n left right addr s :=
    let mid := middle minbound maxbound
    if n.state ≠ .unknown ∧ minbound ≤ s.dest ∧ ptrAdd s.dest s.size ≤ maxbound then
      .done (.ok s) (.node { n with state := .memset, memSetTo := fill } left right)
    else if addr < mid ∧ mid < ptrAdd addr s.size then
      let leftChunkSize := mid - addr
      let (n, left, right) := forceChildrenAndDeriveState n left right
      match visitLeft { dest := s.dest, size := leftChunkSize } addr left with
      | (.error e, left) => .done (.error e) (.node n left right)
      | (.ok _, left) =>
        match visitRight { dest := ptrAdd s.dest leftChunkSize, size := s.size - leftChunkSize }
            mid right with
        | (.error e, right) => .done (.error e) (.node n left right)
        | (.ok _, right) => .done (.ok s) (.node n left right)
    else .descend s

/-! ## Operations -/

/-- `SegmentTree`. -/
structure SegmentTree where
  start : ℕ
  stop : ℕ
  chunkSize : ℕ
  root : NodePtr := .null

namespace SegmentTree

/-- The recursion of `traverse` halves a 64-bit range at each call. -/
def maxDepth : ℕ := 65

/-- `traverse(where, theTraverser)`. -/
def run {σ : Type} (tree : SegmentTree) (T : Traverser σ) (s : σ) (addr : ℕ) :
    Except Fault σ × SegmentTree :=
  let (result, root) := traverse T tree.chunkSize maxDepth s addr tree.root tree.start tree.stop
  (result, { tree with root })

/-- `allocate`. -/
def allocate (tree : SegmentTree) (addr size : ℕ) (state : MemoryState) (status : MemoryStatus) :
    Except Fault Unit × SegmentTree :=
  if size > ptrSub tree.stop tree.start then (.error (.outOfMemory size), tree)
  else tree.run (allocTraverser state status size) () addr

/-- `store`. -/
def store (tree : SegmentTree) (addr : ℕ) (data : List UInt8) : Except Fault Unit × SegmentTree :=
  let (result, tree) := tree.run storeTraverser { data } addr
  (result.map fun _ => (), tree)

/-- `get`. -/
def get (tree : SegmentTree) (addr : ℕ) : Except Fault IntervalState × SegmentTree :=
  let (result, tree) := tree.run loadTraverser {} addr
  (result.map fun s => ⟨s.ptr, s.state, s.filledWith⟩, tree)

/-- `free`. -/
def free (tree : SegmentTree) (addr : ℕ) (desiredStatus : MemoryStatus) :
    Except Fault Unit × SegmentTree :=
  if addr < tree.start ∨ tree.stop ≤ addr then (.error (.illegalFree addr), tree)
  else tree.run (freeTraverser desiredStatus) () addr

/-- `memset`. -/
def memset (tree : SegmentTree) (addr : ℕ) (fill : UInt8) (size : ℕ) :
    Except Fault Unit × SegmentTree :=
  if addr < tree.start ∨ tree.stop ≤ addr then (.error (.illegalStore addr), tree)
  else
    let (result, tree) := tree.run (memsetTraverser fill) ⟨addr, size⟩ addr
    (result.map fun _ => (), tree)

end SegmentTree

end Borealis
