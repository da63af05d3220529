import Borealis.Executor.Descend
import Borealis.Executor.MemorySimulator

/-!
# The layout of the simulated memory

A `Layout` is a chunk size and a memory power whose address space, with one more chunk behind it,
fits in 64 bits.  Under a layout the sums of addresses the allocators compute do not wrap, every
node of the tree stands for a dyadic range, and every operation of the tree is a `descend` from
its root.
-/

namespace Borealis

open Lib

/-- A chunk size and a memory power. -/
structure Layout where
  chunkSize : ℕ
  power : ℕ
  pos : 0 < chunkSize
  fits : 2 ^ 20 + span chunkSize power + chunkSize ≤ 2 ^ 64

namespace Layout

variable (L : Layout)

/-- The first address of the tree. -/
def start : ℕ :=
  2 ^ 20

/-- The size of the tree. -/
def size : ℕ :=
  span L.chunkSize L.power

/-- The address after the tree. -/
def stop : ℕ :=
  start + L.size

/-- The border between the stack and the heap. -/
def half : ℕ :=
  start + L.size / 2

/-- The first address of the region that holds the blocks of a status. -/
def regionStart : MemoryStatus → ℕ
  | .malloc => L.half
  | _ => start

/-- The address after the region that holds the blocks of a status. -/
def regionStop : MemoryStatus → ℕ
  | .malloc => L.stop
  | _ => L.half

theorem half_le_stop : L.half ≤ L.stop := by
  simp only [half, stop]
  omega

theorem regionStart_le_regionStop (status : MemoryStatus) :
    L.regionStart status ≤ L.regionStop status := by
  cases status
  · exact Nat.le_add_right _ _
  · exact L.half_le_stop
  · exact Nat.le_add_right _ _

theorem regionStop_le (status : MemoryStatus) : L.regionStop status ≤ L.stop := by
  cases status
  · exact L.half_le_stop
  · exact le_rfl
  · exact L.half_le_stop

theorem stop_add_chunkSize_le : L.stop + L.chunkSize ≤ 2 ^ 64 :=
  L.fits

theorem stop_lt : L.stop < 2 ^ 64 := by
  have := L.stop_add_chunkSize_le
  have := L.pos
  omega

theorem power_lt_maxDepth : L.power < SegmentTree.maxDepth := by
  have hsize : 2 ^ L.power ≤ L.size := Nat.le_mul_of_pos_left _ L.pos
  have hstop := L.stop_lt
  have hpow : 2 ^ L.power < 2 ^ 64 := by
    simp only [stop] at hstop
    omega
  have := (Nat.pow_lt_pow_iff_right (by norm_num)).mp hpow
  simp only [SegmentTree.maxDepth]
  omega

/-- The index of the chunk of an address. -/
def chunkOf (a : ℕ) : ℕ :=
  (a - start) / L.chunkSize

/-- The index of the pair of neighbouring chunks of an address. -/
def pairOf (a : ℕ) : ℕ :=
  L.chunkOf a / 2

theorem chunkOf_mono {a b : ℕ} (hab : a ≤ b) : L.chunkOf a ≤ L.chunkOf b :=
  Nat.div_le_div_right (Nat.sub_le_sub_right hab _)

/-- The chunks of a node of height `k` have consecutive indices, from a multiple of `2 ^ k` on. -/
theorem exists_chunkOf_eq {k q : ℕ} (hq : IsNode L.chunkSize L.power start k q) :
    ∃ j, ∀ a, q ≤ a → L.chunkOf a = 2 ^ k * j + (a - q) / L.chunkSize := by
  have hbase := hq.le_base
  obtain ⟨j, hj⟩ := hq.dvd_base
  refine ⟨j, fun a hlo => ?_⟩
  have hassoc : span L.chunkSize k * j = L.chunkSize * (2 ^ k * j) := Nat.mul_assoc _ _ _
  have ha : a - start = L.chunkSize * (2 ^ k * j) + (a - q) := by omega
  rw [chunkOf, ha, Nat.mul_add_div L.pos]

/-- The addresses of a chunk have its index. -/
theorem chunkOf_eq {q a : ℕ} (hq : IsNode L.chunkSize L.power start 0 q) (hlo : q ≤ a)
    (hhi : a < q + L.chunkSize) : L.chunkOf a = L.chunkOf q := by
  obtain ⟨j, hj⟩ := L.exists_chunkOf_eq hq
  rw [hj a hlo, hj q le_rfl, Nat.div_eq_of_lt (by omega), Nat.sub_self, Nat.zero_div]

end Layout

/-! ## Addresses that do not wrap -/

theorem ptrAdd_of_lt {a b : ℕ} (h : a + b < 2 ^ 64) : ptrAdd a b = a + b :=
  Nat.mod_eq_of_lt h

theorem ptrSub_of_le {a b : ℕ} (hab : b ≤ a) (ha : a < 2 ^ 64) : ptrSub a b = a - b := by
  simp only [ptrSub]
  omega

theorem Layout.ptrSub_stop_start (L : Layout) : ptrSub L.stop Layout.start = L.size := by
  have hle : Layout.start ≤ L.stop := Nat.le_add_right Layout.start L.size
  rw [ptrSub_of_le hle L.stop_lt, Layout.stop]
  exact Nat.add_sub_cancel_left _ _

/-! ## Simulators of a layout -/

/-- The offset up to which the region of a status is used. -/
def MemorySimulator.offset (m : MemorySimulator) : MemoryStatus → ℕ
  | .malloc => m.currentMallocOffset
  | _ => m.currentAllocOffset

/-- The fields of a simulator that no operation changes are those of the layout. -/
structure MemorySimulator.HasLayout (m : MemorySimulator) (L : Layout) : Prop where
  start : m.tree.start = Layout.start
  stop : m.tree.stop = L.stop
  chunkSize : m.tree.chunkSize = L.chunkSize
  allocStart : m.allocStart = Layout.start
  allocEnd : m.allocEnd = L.half
  mallocStart : m.mallocStart = L.half
  mallocEnd : m.mallocEnd = L.stop

theorem MemorySimulator.init_hasLayout (L : Layout) :
    (MemorySimulator.init L.chunkSize L.power).HasLayout L := by
  have hstop := L.stop_lt
  have hcomm : 2 ^ L.power * L.chunkSize = L.size := Nat.mul_comm _ _
  have hadd : ptrAdd (2 ^ 20) (2 ^ L.power * L.chunkSize) = L.stop := by
    rw [hcomm]
    exact ptrAdd_of_lt hstop
  have hsub : ptrSub L.stop (2 ^ 20) = L.size := L.ptrSub_stop_start
  have hhalf : ptrAdd (2 ^ 20) (L.size / 2) = L.half := by
    refine ptrAdd_of_lt ?_
    simp only [Layout.stop, Layout.start] at hstop
    omega
  have hborder : ptrAdd (2 ^ 20)
      (ptrSub (ptrAdd (2 ^ 20) (2 ^ L.power * L.chunkSize)) (2 ^ 20) / 2) = L.half := by
    rw [hadd, hsub, hhalf]
  exact ⟨rfl, hadd, rfl, rfl, hborder, hborder, hadd⟩

namespace MemorySimulator.HasLayout

variable {m : MemorySimulator} {L : Layout} {σ : Type}

/-- A traversal of the tree is a `descend` from its root. -/
theorem run_eq (h : m.HasLayout L) (T : Traverser σ) (s : σ) (addr : ℕ) :
    m.tree.run T s addr =
      ((descend T L.chunkSize L.power Layout.start s addr m.tree.root).1,
        { m.tree with
          root := (descend T L.chunkSize L.power Layout.start s addr m.tree.root).2 }) := by
  simp only [SegmentTree.run, h.start, h.stop, h.chunkSize, Layout.stop, Layout.size,
    traverse_eq_descend L.pos L.power_lt_maxDepth]

/-- Only the root of the tree changes. -/
theorem with_root (h : m.HasLayout L) (root : NodePtr) (o o' : ℕ) :
    ({ m with
      tree := { m.tree with root }
      currentAllocOffset := o
      currentMallocOffset := o' } : MemorySimulator).HasLayout L :=
  ⟨h.start, h.stop, h.chunkSize, h.allocStart, h.allocEnd, h.mallocStart, h.mallocEnd⟩

end MemorySimulator.HasLayout

end Borealis
