import Borealis.Executor.Ownership
import Borealis.Executor.StoreCheck

/-!
# The bounds check of stores

A store should be accepted exactly if one live allocation holds all of its bytes.  The parts into
which a store is split above the allocated nodes are checked one by one, so a store over two
neighbouring live allocations is accepted as well; that is the only difference.
-/

namespace Borealis

open Lib

variable {L : Layout}

/-- One live allocation was asked for all of the bytes. -/
def Session.InOneBlock (s : Session) (addr size : ℕ) : Prop :=
  ∃ A ∈ s.live, ∀ a, addr ≤ a → a < addr + size → A.Contains a

/-- Each of the bytes was asked for by some live allocation. -/
def Session.InBlocks (s : Session) (addr size : ℕ) : Prop :=
  ∀ a, addr ≤ a → a < addr + size → ∃ A ∈ s.live, A.Contains a

theorem Session.InOneBlock.inBlocks {s : Session} {addr size : ℕ} (h : s.InOneBlock addr size) :
    s.InBlocks addr size := by
  obtain ⟨A, hA, hall⟩ := h
  exact fun a ha ha' => ⟨A, hA, hall a ha ha'⟩

theorem Allocation.IsBlock.covers {A : Allocation} (hA : A.IsBlock L) {a : ℕ}
    (ha : A.Contains a) : A.Covers a := by
  obtain ⟨⟨k, hlevel, hreal, -⟩, -⟩ := hA
  have hle := hlevel.le
  simp only [Contains, Covers, hreal] at ha ⊢
  omega

theorem Allocation.IsBlock.end_lt {A : Allocation} (hA : A.IsBlock L) :
    A.base + A.amount < 2 ^ 64 := by
  obtain ⟨⟨k, hlevel, -, hnode⟩, -⟩ := hA
  have hle := hlevel.le
  have hend : A.base + span L.chunkSize k ≤ L.stop := hnode.end_le
  have hstop := L.stop_lt
  omega

namespace Session.Tracked

variable {s : Session}

theorem checkable (h : s.Tracked L) : Checkable L.chunkSize L.power Layout.start s.root where
  one := h.one
  fits a hlo hhi o ho := by
    rw [h.owners a hlo hhi, List.mem_map] at ho
    obtain ⟨A, hA, rfl⟩ := ho
    exact (h.block A (List.mem_filter.mp hA).1).end_lt

/-- The owners of the tree stand for the live allocations. -/
theorem owned_iff (h : s.Tracked L) {addr size : ℕ} (hlo : Layout.start ≤ addr)
    (hhi : addr + size ≤ L.stop) :
    Owned L.chunkSize L.power Layout.start s.root addr size ↔ s.InBlocks addr size := by
  refine forall_congr' fun a => imp_congr_right fun ha => imp_congr_right fun ha' => ?_
  rw [h.owners a (by omega) (by omega)]
  constructor
  · rintro ⟨o, ho, hcontains⟩
    obtain ⟨A, hA, rfl⟩ := List.mem_map.mp ho
    exact ⟨A, (List.mem_filter.mp hA).1, hcontains⟩
  · rintro ⟨A, hA, hcontains⟩
    refine ⟨A.owner, List.mem_map_of_mem (List.mem_filter.mpr ⟨hA, ?_⟩), hcontains⟩
    simpa using (h.block A hA).covers hcontains

/-- A store is accepted exactly if each of its bytes is in a live allocation. -/
theorem store_acceptedIf (h : s.Tracked L) {addr : ℕ} {data : List UInt8}
    (hpos : 0 < data.length) (hlo : Layout.start ≤ addr) (hhi : addr + data.length ≤ L.stop) :
    AcceptedIf (s.InBlocks addr data.length) (s.perform (.store addr data)).1 :=
  ((Session.storeWalk h.layout addr data).acceptedIf_owned rfl h.checkable hpos
    ⟨hlo, by simp only [Layout.stop] at hhi; exact Nat.lt_of_lt_of_le (by omega) hhi, hhi,
      L.stop_lt⟩).congr (h.owned_iff hlo hhi)

end Session.Tracked

/-- **Store bounds checking is exact** for the ranges that are not covered by several live
allocations together, and for no others: in every state that a run of fresh requests reaches, a
store in the tree is accepted exactly if one live allocation holds its range, and otherwise throws
`illegal_mem_write_exception`, if and only if a range all of whose bytes are live lies in one live
allocation. -/
theorem store_exact_iff (L : Layout) {s : Session}
    (hrun : Reachable Session.step (Session.Fresh L) (Session.init L) s) {addr : ℕ}
    {data : List UInt8} (hpos : 0 < data.length) (hlo : Layout.start ≤ addr)
    (hhi : addr + data.length ≤ L.stop) :
    AcceptedIf (s.InOneBlock addr data.length) (s.perform (.store addr data)).1 ↔
      (s.InBlocks addr data.length → s.InOneBlock addr data.length) := by
  have haccepted := (Session.tracked_of_reachable hrun).store_acceptedIf hpos hlo hhi
  constructor
  · intro hexact hblocks
    exact hexact.ok_iff.mp (haccepted.ok_iff.mpr hblocks)
  · intro hone
    exact haccepted.congr ⟨hone, Session.InOneBlock.inBlocks⟩

/-- Eight bytes of heap, and a store of three bytes behind the first two. -/
theorem store_exact_eightChunks :
    (((Session.init eightChunks).perform (.mallocMemory 8 .zero)).2.perform
      (.store (2 ^ 20 + 34) [1, 2, 3])).1 = .ok () := by
  have hfresh : (Session.init eightChunks).Fresh eightChunks (.mallocMemory 8 .zero) :=
    Session.placed_of_room rfl (show _ = Except.ok 8 from rfl) (by decide) (by decide)
  have hrun := Session.reachable_perform Reachable.init (.mallocMemory 8 .zero)
    hfresh rfl
  have hone : ((Session.init eightChunks).perform (.mallocMemory 8 .zero)).2.InOneBlock
      (2 ^ 20 + 34) [(1 : UInt8), 2, 3].length := by
    refine ⟨⟨2 ^ 20 + 32, 8, 8, .malloc, .memset⟩, by decide, fun a ha ha' => ?_⟩
    simp only [Allocation.Contains, List.length_cons, List.length_nil] at ha' ⊢
    omega
  have hexact : AcceptedIf (Session.InOneBlock _ (2 ^ 20 + 34) [(1 : UInt8), 2, 3].length) _ :=
    (store_exact_iff eightChunks hrun (by decide) (by decide) (by decide)).mpr fun _ => hone
  exact hexact.ok_iff.mpr hone

/-- The heap hands out two neighbouring blocks of eight bytes; a store of two bytes over their
border lies in neither, and is accepted. -/
theorem store_not_exact :
    ¬ ∀ (L : Layout) (s : Session),
      Reachable Session.step (fun _ _ => True) (Session.init L) s →
      ∀ (addr : ℕ) (data : List UInt8), 0 < data.length → Layout.start ≤ addr →
        addr + data.length ≤ L.stop →
        AcceptedIf (s.InOneBlock addr data.length) (s.perform (.store addr data)).1 := by
  intro hclaim
  have hrun : Reachable Session.step (fun _ _ => True) (Session.init eightChunks) _ := .init
  have hrun₁ := Session.reachable_perform hrun (.mallocMemory 8 .zero) trivial rfl
  have hrun₂ := Session.reachable_perform hrun₁ (.mallocMemory 8 .zero) trivial rfl
  have hexact := hclaim eightChunks _ hrun₂ (2 ^ 20 + 39) [1, 2] (by decide) (by decide)
    (by decide)
  obtain ⟨A, hA, hall⟩ := hexact.ok_iff.mp rfl
  have hfirst := hall (2 ^ 20 + 39) le_rfl (by decide)
  have hsecond := hall (2 ^ 20 + 40) (by decide) (by decide)
  revert A
  decide

end Borealis
