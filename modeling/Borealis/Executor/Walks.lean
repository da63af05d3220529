import Borealis.Executor.FreeWalk
import Borealis.Executor.MemsetWalk
import Borealis.Executor.Request
import Borealis.Executor.StoreWalk

/-!
# The walks of a session

What the operations other than requests do to the tree of a session, as walks from its root.
-/

namespace Borealis

open Lib

variable {L : Layout} {s : Session}

/-- The node pointer a session's operations start from. -/
def Session.root (s : Session) : NodePtr :=
  s.sim.tree.root

/-- The address and status an operation releases. -/
def Op.releases : Op → Option (ℕ × MemoryStatus)
  | .deallocateMemory addr => some (addr, .alloca)
  | .freeMemory addr => some (addr, .malloc)
  | _ => none

namespace Session

theorem settle_live {α : Type} {r : Except Fault α × MemorySimulator}
    {update : α → Session → Session} (hupdate : ∀ v s', (update v s').live = s'.live) :
    (s.settle r update).2.live = s.live := by
  unfold settle
  split
  · rfl
  · rw [hupdate]

/-- A store is a `StoreWalk`. -/
theorem storeWalk (hs : s.sim.HasLayout L) (addr : ℕ) (data : List UInt8) :
    StoreWalk L.chunkSize L.power Layout.start addr { data } s.root
      (s.perform (.store addr data)).1 (s.perform (.store addr data)).2.root := by
  have hwalk := storeWalk_descend L.chunkSize L.power Layout.start addr { data } s.root
  have hroot : (s.perform (.store addr data)).2.root =
      (descend storeTraverser L.chunkSize L.power Layout.start { data } addr s.root).2 := by
    have hsim : (s.perform (.store addr data)).2.sim = (s.sim.store addr data).2 :=
      settle_sim fun _ _ => rfl
    simp only [root, hsim, MemorySimulator.store, SegmentTree.store, hs.run_eq]
  have hresult : (s.perform (.store addr data)).1 =
      (descend storeTraverser L.chunkSize L.power Layout.start { data } addr s.root).1.map
        fun _ => () := by
    simp only [perform, settle, MemorySimulator.store, SegmentTree.store, hs.run_eq, root]
    cases (descend storeTraverser L.chunkSize L.power Layout.start { data } addr
      s.sim.tree.root).1 <;> rfl
  rw [hresult, hroot]
  exact hwalk

theorem store_live (addr : ℕ) (data : List UInt8) :
    (s.perform (.store addr data)).2.live = s.live :=
  settle_live fun _ _ => rfl

/-- A memset in the tree is the traversal of the root. -/
theorem perform_memset (hs : s.sim.HasLayout L) {addr : ℕ}
    (hin : ¬ (addr < Layout.start ∨ L.stop ≤ addr)) (fill : UInt8) (size : ℕ) :
    (s.perform (.memset addr fill size)).1 =
        (descend (memsetTraverser fill) L.chunkSize L.power Layout.start ⟨addr, size⟩ addr
          s.root).1.map (fun _ => ()) ∧
      (s.perform (.memset addr fill size)).2.root =
        (descend (memsetTraverser fill) L.chunkSize L.power Layout.start ⟨addr, size⟩ addr
          s.root).2 := by
  have hsim : (s.perform (.memset addr fill size)).2.sim = (s.sim.memset addr fill size).2 :=
    settle_sim fun _ _ => rfl
  constructor
  · simp only [perform, settle, MemorySimulator.memset, SegmentTree.memset, hs.start, hs.stop, hin,
      if_false, hs.run_eq, root]
    cases (descend (memsetTraverser fill) L.chunkSize L.power Layout.start ⟨addr, size⟩ addr
      s.sim.tree.root).1 <;> rfl
  · simp only [root, hsim, MemorySimulator.memset, SegmentTree.memset, hs.start, hs.stop, hin,
      if_false, hs.run_eq]

/-- A memset is refused outside the tree, and otherwise a `MemsetWalk`. -/
theorem memsetWalk (hs : s.sim.HasLayout L) (addr : ℕ) (fill : UInt8) (size : ℕ) :
    s.perform (.memset addr fill size) = (.error (.illegalStore addr), s) ∨
      MemsetWalk L.chunkSize fill L.power Layout.start addr ⟨addr, size⟩ s.root
        (s.perform (.memset addr fill size)).1 (s.perform (.memset addr fill size)).2.root := by
  by_cases hin : addr < Layout.start ∨ L.stop ≤ addr
  · refine Or.inl ?_
    simp only [perform, settle, MemorySimulator.memset, SegmentTree.memset, hs.start, hs.stop, hin,
      if_true]
  · obtain ⟨hresult, hroot⟩ := perform_memset hs hin fill size
    rw [hresult, hroot]
    exact Or.inr (memsetWalk_descend _ _ _ addr fill ⟨addr, size⟩ s.root)

theorem memset_live (addr : ℕ) (fill : UInt8) (size : ℕ) :
    (s.perform (.memset addr fill size)).2.live = s.live :=
  settle_live fun _ _ => rfl

theorem perform_release {op : Op} {addr : ℕ} {st : MemoryStatus}
    (hop : op.releases = some (addr, st)) :
    s.perform op = s.settle (s.sim.release addr st) fun _ s' => s'.released addr st := by
  cases op with
  | deallocateMemory addr' =>
      obtain ⟨rfl, rfl⟩ := Prod.mk.inj (Option.some.inj hop)
      rfl
  | freeMemory addr' =>
      obtain ⟨rfl, rfl⟩ := Prod.mk.inj (Option.some.inj hop)
      rfl
  | _ => cases hop

theorem releases_status {op : Op} {addr : ℕ} {st : MemoryStatus}
    (hop : op.releases = some (addr, st)) : st ≠ .unallocated := by
  cases op <;> simp_all [Op.releases]
  all_goals rintro rfl; simp_all

/-- A release is refused outside the tree, and otherwise a `FreeWalk`; the history follows if it
returns. -/
theorem freeWalk (hs : s.sim.HasLayout L) {op : Op} {addr : ℕ} {st : MemoryStatus}
    (hop : op.releases = some (addr, st)) :
    s.perform op = (.error (.illegalFree addr), s) ∨
      ∃ result root, s.perform op = s.settle (result, { s.sim with tree := { s.sim.tree with root } })
          (fun _ s' => s'.released addr st) ∧
        FreeWalk L.chunkSize st addr L.power Layout.start s.root result root := by
  rw [perform_release hop]
  unfold MemorySimulator.release
  split
  · exact Or.inl rfl
  · by_cases hin : addr < Layout.start ∨ L.stop ≤ addr
    · refine Or.inl ?_
      simp only [settle, SegmentTree.free, hs.start, hs.stop, hin, if_true]
    · refine Or.inr ⟨_, _, ?_, freeWalk_descend _ st addr _ _ s.root⟩
      simp only [SegmentTree.free, hs.start, hs.stop, hin, if_false, hs.run_eq, root]

end Session

end Borealis
