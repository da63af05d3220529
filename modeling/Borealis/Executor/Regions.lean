import Borealis.Executor.Request

/-!
# The regions of the allocators

`AllocateMemory` uses `[allocStart, allocEnd)` and `MallocMemory` `[mallocStart, mallocEnd)`, but
neither looks at the end of its region: the only check is the one of `SegmentTree::allocate`, that
a request is not larger than the whole tree.  `Fits` is the missing check.  Where every request
fits, or is larger than the tree, the blocks are disjoint nodes of the tree in their regions.
-/

namespace Borealis

open Lib

variable {L : Layout}

/-- The block a request is given ends in the region of the request, or the request is larger than
the tree. -/
def Session.Fits (L : Layout) (s : Session) (op : Op) : Prop :=
  ∀ r, s.request op = some r → ¬ L.TooBig r.amount →
    ∀ realAmount, calcRealMemoryAmount r.amount L.chunkSize = .ok realAmount →
      r.base + roundUp r.offset realAmount + realAmount ≤ r.stop

theorem Session.fits_of_room {s : Session} {op : Op} {r : Request} {realAmount : ℕ}
    (hr : s.request op = some r) (hcalc : calcRealMemoryAmount r.amount L.chunkSize = .ok realAmount)
    (hroom : r.base + roundUp r.offset realAmount + realAmount ≤ r.stop) : s.Fits L op := by
  intro r' hr' _ realAmount' hcalc'
  obtain rfl := Option.some.inj (hr.symm.trans hr')
  obtain rfl := Except.ok.inj (hcalc.symm.trans hcalc')
  exact hroom

/-- The blocks handed out are disjoint nodes of the tree, each in the region of its status. -/
structure WellPlaced (L : Layout) (issued : List Allocation) : Prop where
  disjoint : issued.Pairwise fun A B => A.base + A.real ≤ B.base ∨ B.base + B.real ≤ A.base
  node : ∀ A ∈ issued, ∃ k, A.real = span L.chunkSize k ∧
    IsNode L.chunkSize L.power Layout.start k A.base
  region : ∀ A ∈ issued, L.regionStart A.status ≤ A.base ∧
    A.base + A.real ≤ L.regionStop A.status

/-- The invariant behind `WellPlaced`: every block lies below the offset of its region. -/
structure Session.InRegions (L : Layout) (s : Session) : Prop where
  layout : s.sim.HasLayout L
  offset : ∀ status, L.regionStart status + s.sim.offset status ≤ L.regionStop status
  node : ∀ A ∈ s.issued, ∃ k, A.real = span L.chunkSize k ∧
    IsNode L.chunkSize L.power Layout.start k A.base
  region : ∀ A ∈ s.issued, L.regionStart A.status ≤ A.base ∧
    A.base + A.real ≤ L.regionStart A.status + s.sim.offset A.status
  disjoint : s.issued.Pairwise fun A B => A.base + A.real ≤ B.base ∨ B.base + B.real ≤ A.base

theorem Session.InRegions.wellPlaced {s : Session} (h : s.InRegions L) :
    WellPlaced L s.issued where
  disjoint := h.disjoint
  node := h.node
  region A hA := ⟨(h.region A hA).1, (h.region A hA).2.trans (h.offset A.status)⟩

theorem Session.init_inRegions (L : Layout) : (Session.init L).InRegions L where
  layout := MemorySimulator.init_hasLayout L
  offset := by
    intro status
    have hzero : (Session.init L).sim.offset status = 0 := by cases status <;> rfl
    rw [hzero, Nat.add_zero]
    exact L.regionStart_le_regionStop status
  node := by simp [Session.init]
  region := by simp [Session.init]
  disjoint := by simp [Session.init]

/-- The border of the halves is aligned for the blocks that fit the upper half. -/
theorem span_dvd_half {k : ℕ} (hfits : span L.chunkSize k ≤ L.size - L.size / 2) :
    span L.chunkSize k ∣ L.size / 2 := by
  have hsize : L.size = span L.chunkSize L.power := rfl
  cases hp : L.power with
  | zero =>
      have := span_mono L.chunkSize (Nat.zero_le k)
      rw [hp] at hsize
      have hzero : L.size / 2 = 0 := by omega
      simp [hzero]
  | succ p =>
      rw [hp, span_succ] at hsize
      have hhalf : L.size / 2 = span L.chunkSize p := by omega
      rw [hhalf]
      exact span_dvd_span _ (le_of_span_le L.pos (by omega))

/-- A block rounded up from the start of a region is a node if it ends in the tree. -/
theorem isNode_of_room {status : MemoryStatus} {offset k : ℕ}
    (hroom : L.regionStart status + roundUp offset (span L.chunkSize k) + span L.chunkSize k ≤
      L.stop) :
    IsNode L.chunkSize L.power Layout.start k
      (L.regionStart status + roundUp offset (span L.chunkSize k)) := by
  have hround := dvd_roundUp offset (span L.chunkSize k)
  have hhalf : L.half = Layout.start + L.size / 2 := rfl
  have hstop : L.stop = Layout.start + L.size := rfl
  have hsize : L.size = span L.chunkSize L.power := rfl
  have hbase : Layout.start ≤ L.regionStart status ∧
      span L.chunkSize k ∣ L.regionStart status - Layout.start := by
    cases status with
    | malloc =>
        simp only [Layout.regionStart] at hroom ⊢
        refine ⟨by omega, ?_⟩
        rw [hhalf, Nat.add_sub_cancel_left]
        exact span_dvd_half (by omega)
    | _ => simp [Layout.regionStart]
  have hend : L.regionStart status + roundUp offset (span L.chunkSize k) + span L.chunkSize k ≤
      Layout.start + span L.chunkSize L.power := by omega
  refine .of_dvd (le_of_span_le L.pos (by omega)) (by omega) ?_ hend L.pos
  rw [Nat.sub_add_comm hbase.1]
  exact Nat.dvd_add hbase.2 hround

/-! ## One request -/

/-- The place of a request whose block ends in the tree: a node of the tree, behind the offset of
its region. -/
theorem place_of_room {s : Session} {op : Op} {r : Request} (hs : s.sim.HasLayout L)
    (hr : s.request op = some r) (hbig : ¬ L.TooBig r.amount)
    (hroom : ∀ realAmount, calcRealMemoryAmount r.amount L.chunkSize = .ok realAmount →
      r.base + roundUp r.offset realAmount + realAmount ≤ L.stop) :
    ∃ k, Level L.chunkSize r.amount k ∧ r.amount < 2 ^ 63 ∧
      calcRealMemoryAmount r.amount L.chunkSize = .ok (span L.chunkSize k) ∧
      r.place (span L.chunkSize k) = r.base + roundUp r.offset (span L.chunkSize k) ∧
      IsNode L.chunkSize L.power Layout.start k (r.place (span L.chunkSize k)) := by
  have hamount : r.amount < 2 ^ 63 := Nat.lt_of_not_le fun h => hbig (Or.inl h)
  obtain ⟨k, hlevel, hcalc⟩ := calcRealMemoryAmount_eq L.pos hamount
  have hroom := hroom _ hcalc
  obtain ⟨hbase, -⟩ := Session.request_region hs hr
  have hlt := L.stop_lt
  have hplace : r.place (span L.chunkSize k) = r.base + roundUp r.offset (span L.chunkSize k) := by
    rw [Request.place, nextPtr_eq, ptrAdd_of_lt (by omega)]
  refine ⟨k, hlevel, hamount, hcalc, hplace, ?_⟩
  rw [hplace, hbase]
  exact isNode_of_room (hbase ▸ hroom)

/-- The place of a request that fits: a node of the tree in the region of the request, behind the
blocks handed out before. -/
theorem place_of_fits {s : Session} {op : Op} {r : Request} (hs : s.sim.HasLayout L)
    (hr : s.request op = some r) (hfits : s.Fits L op) (hbig : ¬ L.TooBig r.amount) :
    ∃ k, Level L.chunkSize r.amount k ∧ r.amount < 2 ^ 63 ∧
      IsNode L.chunkSize L.power Layout.start k (r.place (span L.chunkSize k)) ∧
      r.base + r.offset ≤ r.place (span L.chunkSize k) ∧
      r.place (span L.chunkSize k) + span L.chunkSize k ≤ r.stop := by
  have hend := hfits r hr hbig
  have hstop := (Session.request_region hs hr).2.1
  have hroom : r.stop ≤ L.stop := hstop ▸ L.regionStop_le r.status
  obtain ⟨k, hlevel, hamount, hcalc, hplace, hnode⟩ :=
    place_of_room hs hr hbig fun real hreal => (hend real hreal).trans hroom
  have hle := le_roundUp (span_pos L.pos k) r.offset
  have hblock := hend _ hcalc
  exact ⟨k, hlevel, hamount, hnode, by omega, by omega⟩

/-- A request that fits is granted, or is larger than the tree and throws. -/
theorem perform_of_fits {s : Session} {op : Op} {r : Request} (hs : s.sim.HasLayout L)
    (hr : s.request op = some r) (hfits : s.Fits L op) :
    (s.perform op).1 = .ok () ∨ (s.perform op).1 = .error (.outOfMemory r.amount) := by
  by_cases hbig : L.TooBig r.amount
  · rw [Session.perform_tooBig hs hr hbig]
    exact Or.inr rfl
  · obtain ⟨k, hlevel, hamount, hnode, hbase, -⟩ := place_of_fits hs hr hfits hbig
    obtain ⟨sim, hperform, -⟩ := Session.perform_node hs hr hamount hlevel hnode (by omega)
    rw [hperform]
    exact Or.inl rfl

/-- Blocks of different regions do not meet. -/
theorem regions_apart {status status' : MemoryStatus}
    (hne : ¬ (status = .malloc ↔ status' = .malloc)) :
    L.regionStop status ≤ L.regionStart status' ∨ L.regionStop status' ≤ L.regionStart status := by
  cases status <;> cases status' <;> simp_all [Layout.regionStart, Layout.regionStop]

theorem regionStart_congr {status status' : MemoryStatus}
    (h : status = .malloc ↔ status' = .malloc) : L.regionStart status = L.regionStart status' := by
  cases status <;> cases status' <;> simp_all [Layout.regionStart]

theorem regionStop_congr {status status' : MemoryStatus}
    (h : status = .malloc ↔ status' = .malloc) : L.regionStop status = L.regionStop status' := by
  cases status <;> cases status' <;> simp_all [Layout.regionStop]

theorem offset_congr {m : MemorySimulator} {status status' : MemoryStatus}
    (h : status = .malloc ↔ status' = .malloc) : m.offset status = m.offset status' := by
  cases status <;> cases status' <;> simp_all [MemorySimulator.offset]

/-- The step lemma for a request: the new block starts behind the blocks of its region and ends
at the new offset. -/
theorem Session.InRegions.perform_request {s : Session} {op : Op} {r : Request}
    (h : s.InRegions L) (hr : s.request op = some r) (hfits : s.Fits L op) :
    (s.perform op).2.InRegions L := by
  by_cases hbig : L.TooBig r.amount
  · rw [Session.perform_tooBig h.layout hr hbig]
    exact h
  obtain ⟨k, hlevel, hamount, hnode, hplace, hend⟩ := place_of_fits h.layout hr hfits hbig
  obtain ⟨hbase, hstop, hoffset⟩ := Session.request_region h.layout hr
  obtain ⟨sim, hperform, hsim, -, hoffsets⟩ :=
    Session.perform_node h.layout hr hamount hlevel hnode (by omega)
  have hmono : ∀ status, s.sim.offset status ≤ sim.offset status := by
    intro status
    rw [hoffsets]
    split
    · next hsame => rw [offset_congr hsame]; omega
    · exact le_rfl
  have hnew : L.regionStart r.status + sim.offset r.status =
      r.place (span L.chunkSize k) + span L.chunkSize k := by
    rw [hoffsets, if_pos Iff.rfl]
    omega
  rw [hperform]
  refine ⟨hsim, fun status => ?_, ?_, ?_, ?_⟩
  · show _ + sim.offset status ≤ _
    by_cases hsame : status = .malloc ↔ r.status = .malloc
    · rw [regionStart_congr hsame, regionStop_congr hsame, offset_congr hsame]
      omega
    · rw [hoffsets, if_neg hsame]
      exact h.offset status
  · intro A hA
    rcases List.mem_cons.mp hA with rfl | hA
    · exact ⟨k, rfl, hnode⟩
    · exact h.node A hA
  · intro A hA
    show _ ∧ _ ≤ _ + sim.offset A.status
    rcases List.mem_cons.mp hA with rfl | hA
    · simp only [Request.allocation]
      omega
    · have := h.region A hA
      have := hmono A.status
      omega
  · refine List.pairwise_cons.mpr ⟨fun A hA => ?_, h.disjoint⟩
    have hregion := h.region A hA
    have hA := h.offset A.status
    simp only [Request.allocation]
    by_cases hsame : A.status = .malloc ↔ r.status = .malloc
    · rw [regionStart_congr hsame, offset_congr hsame] at hregion
      omega
    · have := regions_apart (L := L) hsame
      omega

/-- The step lemma: every operation that fits keeps the blocks in their regions. -/
theorem Session.InRegions.step {s s' : Session} {op : Op} (h : s.InRegions L)
    (hfits : s.Fits L op) (hstep : s.step op = some s') : s'.InRegions L := by
  rw [step_eq_some hstep]
  cases hr : s.request op with
  | some r => exact h.perform_request hr hfits
  | none =>
      obtain ⟨⟨root, hsim⟩, hissued⟩ := perform_frame hr
      have hoffset : ∀ status, (s.perform op).2.sim.offset status = s.sim.offset status := by
        intro status
        rw [hsim]
        cases status <;> rfl
      refine ⟨hsim ▸ h.layout.with_root root _ _, ?_, ?_, ?_, ?_⟩
      · simpa only [hoffset] using h.offset
      · rw [hissued]
        exact h.node
      · simpa only [hissued, hoffset] using h.region
      · rw [hissued]
        exact h.disjoint

/-- **The allocators never hand out overlapping blocks** in a run in which every request fits its
region or is larger than the tree: in every state reached the blocks are disjoint nodes of the
tree in their regions, and the next request that fits returns a block or throws
`out_of_memory_exception`. -/
theorem allocations_well_placed (L : Layout) {s : Session}
    (hrun : Reachable Session.step (Session.Fits L) (Session.init L) s) :
    WellPlaced L s.issued ∧
      ∀ op r, s.request op = some r → s.Fits L op →
        (s.perform op).1 = .ok () ∨ (s.perform op).1 = .error (.outOfMemory r.amount) := by
  have hinv : s.InRegions L :=
    hrun.invariant (Session.init_inRegions L) fun s op s' h hfits hstep => h.step hfits hstep
  exact ⟨hinv.wellPlaced, fun op r hr hfits => perform_of_fits hinv.layout hr hfits⟩

/-- Sixty-four bytes of memory in eight chunks. -/
def eightChunks : Layout :=
  ⟨8, 3, by norm_num, by norm_num [span]⟩

/-- Five bytes of stack and twelve of heap. -/
theorem allocations_well_placed_eightChunks :
    WellPlaced eightChunks (((Session.init eightChunks).perform (.allocateMemory 5)).2.perform
      (.mallocMemory 12 .zero)).2.issued := by
  refine (allocations_well_placed eightChunks (Session.reachable_perform
    (Session.reachable_perform .init (.allocateMemory 5) ?_ rfl) (.mallocMemory 12 .zero) ?_ rfl)).1
  · exact Session.fits_of_room rfl (show _ = Except.ok 8 from rfl) (by decide)
  · exact Session.fits_of_room rfl (show _ = Except.ok 16 from rfl) (by decide)

/-- Sixteen bytes of memory in two chunks. -/
def twoChunks : Layout :=
  ⟨8, 1, by norm_num, by norm_num [span]⟩

/-- Nothing keeps `AllocateMemory` out of the heap: after two chunks of stack, `MallocMemory` hands
out the second one again. -/
theorem allocations_overlap :
    ¬ ∀ (L : Layout) (s : Session),
      Reachable Session.step (fun _ _ => True) (Session.init L) s → WellPlaced L s.issued := by
  intro hclaim
  have hrun : Reachable Session.step (fun _ _ => True) (Session.init twoChunks) _ := .init
  have hrun₁ := Session.reachable_perform hrun (.allocateMemory 8) trivial rfl
  have hrun₂ := Session.reachable_perform hrun₁ (.allocateMemory 8) trivial rfl
  have hrun₃ := Session.reachable_perform hrun₂ (.mallocMemory 8 .zero) trivial rfl
  have hdisjoint := (hclaim twoChunks _ hrun₃).disjoint
  revert hdisjoint
  decide

end Borealis
