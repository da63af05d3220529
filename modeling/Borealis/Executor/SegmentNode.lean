import Mathlib.Algebra.Order.Ring.Nat

/-!
# Segment nodes

`Executor/MemorySimulator/SegmentTreeImpl.h`: the nodes of the lazy segment tree that simulates
the memory of an executed program, and the way operations walk through it.

Addresses and sizes are 64-bit: they are natural numbers, and the sums the source computes wrap
(`ptrAdd`).  A buffer of `new uint8_t[chunk_size]` gives a byte, or nothing while it is
uninitialized, at each offset.

An operation that throws keeps the changes it made before, so it returns its result together with
the node pointer.  A failed `ASSERT` ends the process; it is the fault `assertion`.  The source
recurses without a bound; `traverse` has a fuel argument, and running out of it is the fault
`diverges`.
-/

namespace Borealis

/-- `operator+` of an address and a size. -/
def ptrAdd (base offset : ℕ) : ℕ :=
  (base + offset) % 2 ^ 64

/-- `operator-` of two addresses. -/
def ptrSub (a b : ℕ) : ℕ :=
  (a + (2 ^ 64 - b)) % 2 ^ 64

/-- `middle`. -/
def middle (lower upper : ℕ) : ℕ :=
  lower + (upper - lower) / 2

/-- `SegmentNode::MemoryStatus`. -/
inductive MemoryStatus where
  | unallocated | malloc | alloca
deriving DecidableEq, Repr

/-- `SegmentNode::MemoryState`. -/
inductive MemoryState where
  | memset | uninit | unknown
deriving DecidableEq, Repr

/-- The ways an operation on the simulated memory ends without a result: the exceptions of
`Executor/Exceptions.h` and `signalInconsistency`, a failed assertion, and unbounded recursion. -/
inductive Fault where
  | illegalFree (addr : ℕ)
  | illegalLoad (addr : ℕ)
  | illegalStore (addr : ℕ)
  | outOfMemory (size : ℕ)
  | inconsistency (error : String)
  | assertion
  | diverges
deriving DecidableEq, Repr

/-- The process does not survive a failed assertion or an unbounded recursion. -/
def Fault.isFatal : Fault → Bool
  | .assertion | .diverges => true
  | _ => false

/-- `ChunkType`, when it is not null. -/
abbrev Chunk := ℕ → Option UInt8

/-- `new uint8_t[chunk_size]`. -/
def Chunk.fresh : Chunk :=
  fun _ => none

/-- `std::memcpy(chunk.get() + offset, data, data.size())`. -/
def Chunk.memcpy (c : Chunk) (offset : ℕ) (data : List UInt8) : Chunk :=
  fun i => if offset ≤ i ∧ i < offset + data.length then data[i - offset]? else c i

/-- `std::memset(chunk.get() + offset, fill, size)`. -/
def Chunk.memset (c : Chunk) (offset : ℕ) (fill : UInt8) (size : ℕ) : Chunk :=
  fun i => if offset ≤ i ∧ i < offset + size then some fill else c i

/-- The fields of `SegmentNode` other than the children. -/
structure SegmentNode where
  status : MemoryStatus := .unallocated
  state : MemoryState := .unknown
  memSetTo : UInt8 := 255
  chunk : Option Chunk := none
  reallyAllocated : ℕ := 0

/-- `SegmentNode::Ptr`. -/
inductive NodePtr where
  | null
  | node (n : SegmentNode) (left right : NodePtr)

/-- `force`: the node behind a pointer, created if there is none. -/
def NodePtr.force : NodePtr → SegmentNode × NodePtr × NodePtr
  | .null => ({}, .null, .null)
  | .node n left right => (n, left, right)

/-- A child that `forceChildrenAndDeriveState` creates takes its state from the parent. -/
def NodePtr.derive (n : SegmentNode) : NodePtr → NodePtr
  | .null => .node { state := n.state, memSetTo := n.memSetTo } .null .null
  | t => t

/-- The state of a node after its children took it over. -/
def SegmentNode.invalidate (n : SegmentNode) : SegmentNode :=
  { n with state := .unknown }

/-! ## Traversal -/

/-- The result of a visit and the node pointer after it. -/
abbrev Visited (σ : Type) := Except Fault σ × NodePtr

/-- A recursive call of `traverse` on a child, with the bounds of the child. -/
abbrev Visit (σ : Type) := σ → ℕ → NodePtr → Visited σ

/-- What `handlePath` does with a node: it throws or returns `true`, having perhaps changed the
node, or it returns `false` and leaves the node to the walk. -/
inductive PathResult (σ : Type) where
  | done (result : Except Fault σ) (t : NodePtr)
  | descend (s : σ)

/-- A traverser.  `σ` is the part of the traverser that changes between the nodes.  The two
`handleGo` methods are the same in every traverser. -/
structure Traverser (σ : Type) where
  handleEmptyNode : ℕ → Except Fault Unit
  handleGo : SegmentNode → NodePtr → NodePtr → SegmentNode × NodePtr × NodePtr
  handleChunk : (chunkSize minbound maxbound : ℕ) → SegmentNode → NodePtr → NodePtr →
    (addr : ℕ) → σ → Visited σ
  handlePath : (visitLeft visitRight : Visit σ) → (minbound maxbound : ℕ) →
    SegmentNode → NodePtr → NodePtr → (addr : ℕ) → σ → PathResult σ

/-- The check `traverse` makes of a missing node before it creates it. -/
def Traverser.checkEmpty {σ : Type} (T : Traverser σ) (addr : ℕ) : NodePtr → Except Fault Unit
  | .null => T.handleEmptyNode addr
  | .node _ _ _ => .ok ()

/-- `SegmentTree::traverse` on the node that stands for `[minbound, maxbound)`. -/
def traverse {σ : Type} (T : Traverser σ) (chunkSize : ℕ) :
    (fuel : ℕ) → σ → (addr : ℕ) → NodePtr → (minbound maxbound : ℕ) → Visited σ
  | 0, _, _, t, _, _ => (.error .diverges, t)
  | fuel + 1, s, addr, t, minbound, maxbound =>
    if ¬ (minbound < maxbound ∧ minbound ≤ addr ∧ addr < maxbound) then (.error .assertion, t)
    else
      match T.checkEmpty addr t with
      | .error e => (.error e, t)
      | .ok _ =>
        let (n, left, right) := t.force
        let mid := middle minbound maxbound
        let visitLeft : Visit σ := fun s addr t => traverse T chunkSize fuel s addr t minbound mid
        let visitRight : Visit σ := fun s addr t => traverse T chunkSize fuel s addr t mid maxbound
        if maxbound - minbound ≤ chunkSize then
          T.handleChunk chunkSize minbound maxbound n left right addr s
        else
          match T.handlePath visitLeft visitRight minbound maxbound n left right addr s with
          | .done result t' => (result, t')
          | .descend s' =>
            let (n', left', right') := T.handleGo n left right
            if addr < mid then
              let (result, t') := visitLeft s' addr left'
              (result, .node n' t' right')
            else
              let (result, t') := visitRight s' addr right'
              (result, .node n' left' t')

/-- `emptyTraverser`: the `handleGo` methods do nothing. -/
def stay (n : SegmentNode) (left right : NodePtr) : SegmentNode × NodePtr × NodePtr :=
  (n, left, right)

/-- `stateInvalidatingTraverser::forceChildrenAndDeriveState`. -/
def forceChildrenAndDeriveState (n : SegmentNode) (left right : NodePtr) :
    SegmentNode × NodePtr × NodePtr :=
  (n.invalidate, left.derive n, right.derive n)

end Borealis
