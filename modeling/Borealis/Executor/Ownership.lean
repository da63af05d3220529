import Borealis.Executor.Owners
import Borealis.Executor.Regions
import Borealis.Executor.Walks

/-!
# Live allocations and the tree

In a run whose blocks end in the tree and do not meet a live block, the allocated nodes of the
tree are the live allocations of the history, whatever stores, memsets and releases are tried in
between.
-/

namespace Borealis

open Lib

variable {L : Layout}

/-- The block a request is given ends in the tree and meets none of `blocks`, or the request is
larger than the tree. -/
def Session.Placed (L : Layout) (blocks : List Allocation) (s : Session) (op : Op) : Prop :=
  ∀ r, s.request op = some r → ¬ L.TooBig r.amount →
    ∀ realAmount, calcRealMemoryAmount r.amount L.chunkSize = .ok realAmount →
      r.base + roundUp r.offset realAmount + realAmount ≤ L.stop ∧
      ∀ A ∈ blocks, A.base + A.real ≤ r.base + roundUp r.offset realAmount ∨
        r.base + roundUp r.offset realAmount + realAmount ≤ A.base

/-- Blocks are handed out where no live block is. -/
def Session.Fresh (L : Layout) (s : Session) (op : Op) : Prop :=
  s.Placed L s.live op

theorem Session.placed_of_room {s : Session} {op : Op} {r : Request} {realAmount : ℕ}
    {blocks : List Allocation} (hr : s.request op = some r)
    (hcalc : calcRealMemoryAmount r.amount L.chunkSize = .ok realAmount)
    (hroom : r.base + roundUp r.offset realAmount + realAmount ≤ L.stop)
    (hapart : ∀ A ∈ blocks, A.base + A.real ≤ r.base + roundUp r.offset realAmount ∨
      r.base + roundUp r.offset realAmount + realAmount ≤ A.base) : s.Placed L blocks op := by
  intro r' hr' _ realAmount' hcalc'
  obtain rfl := Option.some.inj (hr.symm.trans hr')
  obtain rfl := Except.ok.inj (hcalc.symm.trans hcalc')
  exact ⟨hroom, hapart⟩

theorem Session.placed_of_request_none {s : Session} {op : Op} {blocks : List Allocation}
    (hr : s.request op = none) : s.Placed L blocks op := by
  intro r hr'
  simp [hr] at hr'

theorem Session.Placed.mono {s : Session} {op : Op} {blocks blocks' : List Allocation}
    (h : s.Placed L blocks op) (hsub : ∀ A ∈ blocks', A ∈ blocks) : s.Placed L blocks' op :=
  fun r hr hbig real hreal =>
    ⟨(h r hr hbig real hreal).1, fun A hA => (h r hr hbig real hreal).2 A (hsub A hA)⟩

/-- The node of an allocation. -/
def Allocation.owner (A : Allocation) : Owner :=
  ⟨A.base, A.amount, A.status⟩

/-- The bytes set aside for two allocations do not meet. -/
def Allocation.Apart (A B : Allocation) : Prop :=
  A.base + A.real ≤ B.base ∨ B.base + B.real ≤ A.base

theorem Allocation.not_covers {A B : Allocation} {a : ℕ} (hapart : A.Apart B) (hA : A.Covers a) :
    ¬ B.Covers a := by
  simp only [Covers, Apart] at hA hapart ⊢
  omega

/-- A block is a node of the tree that holds the bytes that were asked for. -/
structure Allocation.IsBlock (L : Layout) (A : Allocation) : Prop where
  node : ∃ k, Level L.chunkSize A.amount k ∧ A.real = span L.chunkSize k ∧
    IsNode L.chunkSize L.power Layout.start k A.base
  status : A.status ≠ .unallocated

/-- The allocated nodes of the tree are the live allocations, which are disjoint blocks. -/
structure Session.Tracked (L : Layout) (s : Session) : Prop where
  layout : s.sim.HasLayout L
  block : ∀ A ∈ s.live, A.IsBlock L
  disjoint : s.live.Pairwise Allocation.Apart
  owners : ∀ a, Layout.start ≤ a → a < L.stop →
    owners L.chunkSize L.power Layout.start s.root a =
      (s.live.filter fun A => A.Covers a).map Allocation.owner

theorem Session.init_tracked (L : Layout) : (Session.init L).Tracked L where
  layout := MemorySimulator.init_hasLayout L
  block := by simp [Session.init]
  disjoint := by simp [Session.init]
  owners := by
    intro a _ _
    exact owners_null

namespace Session.Tracked

variable {s : Session}

/-- An operation that changes neither the owners nor the live allocations. -/
theorem of_owners_eq {s' : Session} (h : s.Tracked L) (hlayout : s'.sim.HasLayout L)
    (hlive : s'.live = s.live)
    (howners : ∀ a, Borealis.owners L.chunkSize L.power Layout.start s'.root a =
      Borealis.owners L.chunkSize L.power Layout.start s.root a) : s'.Tracked L where
  layout := hlayout
  block := hlive ▸ h.block
  disjoint := hlive ▸ h.disjoint
  owners a hlo hhi := by rw [howners, hlive, h.owners a hlo hhi]

theorem filter_covers_eq_nil {A : Allocation} {live : List Allocation}
    (hapart : ∀ B ∈ live, A.Apart B) {a : ℕ} (ha : A.Covers a) :
    live.filter (fun B => B.Covers a) = [] := by
  rw [List.filter_eq_nil_iff]
  intro B hB
  simpa using Allocation.not_covers (hapart B hB) ha

/-- Nothing is allocated where a block lies that is apart from the live ones. -/
theorem owners_eq_nil_of_apart (h : s.Tracked L) {A : Allocation}
    (hapart : ∀ B ∈ s.live, A.Apart B) {a : ℕ} (ha : A.Covers a) (hlo : Layout.start ≤ a)
    (hhi : a < L.stop) : Borealis.owners L.chunkSize L.power Layout.start s.root a = [] := by
  rw [h.owners a hlo hhi, filter_covers_eq_nil hapart ha]
  rfl

/-- At most one of disjoint blocks covers an address. -/
theorem length_filter_covers_le {live : List Allocation}
    (hdisjoint : live.Pairwise Allocation.Apart) (a : ℕ) :
    (live.filter fun A => A.Covers a).length ≤ 1 := by
  induction hdisjoint with
  | nil => simp
  | @cons A rest hA _ ih =>
      by_cases hcovers : A.Covers a
      · simp [hcovers, filter_covers_eq_nil hA hcovers]
      · simpa [hcovers] using ih

/-- At most one allocated node lies over an address. -/
theorem one (h : s.Tracked L) : SingleOwner L.chunkSize L.power Layout.start s.root := by
  intro a hlo hhi
  rw [h.owners a hlo hhi, List.length_map]
  exact length_filter_covers_le h.disjoint a

/-- Only one live allocation covers an address. -/
theorem eq_of_covers (h : s.Tracked L) {A B : Allocation} (hA : A ∈ s.live) (hB : B ∈ s.live)
    {a : ℕ} (ha : A.Covers a) (hb : B.Covers a) : A = B := by
  have hlen := length_filter_covers_le h.disjoint a
  have hA' : A ∈ s.live.filter fun A => A.Covers a := List.mem_filter.mpr ⟨hA, by simpa using ha⟩
  have hB' : B ∈ s.live.filter fun A => A.Covers a := List.mem_filter.mpr ⟨hB, by simpa using hb⟩
  obtain ⟨C, hC⟩ := List.length_eq_one_iff.mp (Nat.le_antisymm hlen (List.length_pos_of_mem hA'))
  rw [hC, List.mem_singleton] at hA' hB'
  rw [hA', hB']

/-! ## Steps -/

theorem request_status {op : Op} {r : Request} (hr : s.request op = some r) :
    r.status ≠ .unallocated := by
  cases op with
  | allocateMemory amount =>
      obtain rfl := Option.some.inj hr
      simp
  | mallocMemory amount fillWith =>
      obtain rfl := Option.some.inj hr
      simp
  | _ => cases hr

/-- What a request does whose block ends in the tree and meets none of `blocks`: the node at its
place is allocated. -/
theorem grant {op : Op} {r : Request} {blocks : List Allocation} (h : s.Tracked L)
    (hr : s.request op = some r) (hplaced : s.Placed L blocks op) (hbig : ¬ L.TooBig r.amount) :
    ∃ k sim, Level L.chunkSize r.amount k ∧
      calcRealMemoryAmount r.amount L.chunkSize = .ok (span L.chunkSize k) ∧
      r.place (span L.chunkSize k) = r.base + roundUp r.offset (span L.chunkSize k) ∧
      IsNode L.chunkSize L.power Layout.start k (r.place (span L.chunkSize k)) ∧
      s.perform op = (.ok (), { s with sim }.issue (r.allocation L.chunkSize k)) ∧
      sim.HasLayout L ∧
      sim.tree.root = (descend (allocTraverser r.state r.status r.amount) L.chunkSize L.power
        Layout.start () (r.place (span L.chunkSize k)) s.root).2 ∧
      ∀ A ∈ blocks, (r.allocation L.chunkSize k).Apart A := by
  have hplaced := hplaced r hr hbig
  obtain ⟨k, hlevel, hamount, hcalc, hplace, hnode⟩ :=
    place_of_room h.layout hr hbig fun real hreal => (hplaced real hreal).1
  have hapart := (hplaced _ hcalc).2
  rw [← hplace] at hapart
  obtain ⟨sim, hperform, hsim, htree, -⟩ :=
    Session.perform_node h.layout hr hamount hlevel hnode (by omega)
  exact ⟨k, sim, hlevel, hcalc, hplace, hnode, hperform, hsim, congrArg SegmentTree.root htree,
    fun A hA => (hapart A hA).symm⟩

/-- A granted request adds its block to the live allocations and marks its node. -/
theorem perform_request {op : Op} {r : Request} (h : s.Tracked L) (hr : s.request op = some r)
    (hfresh : s.Fresh L op) : (s.perform op).2.Tracked L := by
  by_cases hbig : L.TooBig r.amount
  · rw [Session.perform_tooBig h.layout hr hbig]
    exact h
  obtain ⟨k, sim, hlevel, -, -, hnode, hperform, hsim, hroot, hapart⟩ := h.grant hr hfresh hbig
  have hstatus := request_status hr
  have hend : r.place (span L.chunkSize k) + span L.chunkSize k ≤ L.stop := hnode.end_le
  have hfree : ∀ a, r.place (span L.chunkSize k) ≤ a →
      a < r.place (span L.chunkSize k) + span L.chunkSize k →
      Borealis.owners L.chunkSize L.power Layout.start s.root a = [] := by
    intro a hlo hhi
    exact h.owners_eq_nil_of_apart hapart ⟨hlo, hhi⟩ (hnode.le_base.trans hlo) (by omega)
  rw [hperform]
  refine ⟨hsim, ?_, List.pairwise_cons.mpr ⟨hapart, h.disjoint⟩, ?_⟩
  · intro A hA
    rcases List.mem_cons.mp hA with rfl | hA
    · exact ⟨⟨k, hlevel, rfl, hnode⟩, hstatus⟩
    · exact h.block A hA
  · intro a hlo hhi
    show Borealis.owners _ _ _ sim.tree.root a = ((r.allocation L.chunkSize k :: s.live).filter _).map _
    rw [hroot, owners_alloc L.pos hlevel hstatus hnode s.root hfree hlo hhi, List.filter_cons]
    by_cases hin : r.place (span L.chunkSize k) ≤ a ∧ a < r.place (span L.chunkSize k) +
        span L.chunkSize k
    · have hcovers : (r.allocation L.chunkSize k).Covers a := hin
      rw [if_pos hin, if_pos (decide_eq_true hcovers), filter_covers_eq_nil hapart hcovers]
      rfl
    · have hcovers : ¬ (r.allocation L.chunkSize k).Covers a := hin
      rw [if_neg hin, if_neg (by simpa using hcovers), h.owners a hlo hhi]

/-- The walk of a release and the history take away the same block. -/
theorem released (h : s.Tracked L) {addr : ℕ} {st : MemoryStatus} (hst : st ≠ .unallocated)
    {result : Except Fault Unit} {root : NodePtr}
    (hwalk : FreeWalk L.chunkSize st addr L.power Layout.start s.root result root)
    {sim : MemorySimulator} (hsim : sim.HasLayout L) (hroot : sim.tree.root = root) :
    ({ s with sim }.released addr st).Tracked L := by
  refine ⟨hsim, fun A hA => h.block A (List.mem_filter.mp hA).1, h.disjoint.filter _,
    fun a hlo hhi => ?_⟩
  have howners := hwalk.owners_eq L.pos hst h.one hlo hhi
  have hkept : Owner.keptBy addr st ∘ Allocation.owner =
      fun A : Allocation => decide (¬ (A.base = addr ∧ A.status = st)) := rfl
  show Borealis.owners _ _ _ sim.tree.root a = ((s.live.filter _).filter _).map _
  rw [hroot, howners, h.owners a hlo hhi, List.filter_map, hkept, List.filter_filter,
    List.filter_filter]
  simp only [Bool.and_comm]

/-- A release takes the same block out of the tree and out of the live allocations. -/
theorem perform_release {op : Op} {addr : ℕ} {st : MemoryStatus} (h : s.Tracked L)
    (hop : op.releases = some (addr, st)) : (s.perform op).2.Tracked L := by
  rcases Session.freeWalk h.layout hop with herror | ⟨result, root, hperform, hwalk⟩
  · rw [herror]
    exact h
  · rw [hperform]
    cases result with
    | error e =>
        rw [Session.settle_error, hwalk.eq_of_error rfl]
        exact h
    | ok v =>
        rw [Session.settle_ok]
        exact h.released (Session.releases_status hop) hwalk (h.layout.with_root root _ _) rfl

/-- The step lemma: the allocated nodes stay the live allocations. -/
theorem step {s' : Session} {op : Op} (h : s.Tracked L) (hfresh : s.Fresh L op)
    (hstep : s.step op = some s') : s'.Tracked L := by
  rw [Session.step_eq_some hstep]
  cases hr : s.request op with
  | some r => exact h.perform_request hr hfresh
  | none =>
      obtain ⟨⟨root, hsim⟩, -⟩ := Session.perform_frame hr
      have hlayout : (s.perform op).2.sim.HasLayout L := hsim ▸ h.layout.with_root root _ _
      cases op with
      | allocateMemory amount => cases hr
      | mallocMemory amount fillWith => cases hr
      | store addr data =>
          exact h.of_owners_eq hlayout (Session.store_live addr data)
            fun a => (Session.storeWalk h.layout addr data).owners_eq a
      | deallocateMemory addr => exact h.perform_release rfl
      | freeMemory addr => exact h.perform_release rfl
      | memset addr fill size =>
          rcases Session.memsetWalk h.layout addr fill size with herror | hwalk
          · rw [herror]
            exact h
          · exact h.of_owners_eq hlayout (Session.memset_live addr fill size)
              fun a => hwalk.owners_eq a

end Session.Tracked

/-- The run lemma: in a run of fresh requests the allocated nodes of the tree are the live
allocations. -/
theorem Session.tracked_of_reachable {s : Session}
    (hrun : Reachable Session.step (Session.Fresh L) (Session.init L) s) : s.Tracked L :=
  hrun.invariant (Session.init_tracked L) fun _ _ _ h hfresh hstep => h.step hfresh hstep

end Borealis
