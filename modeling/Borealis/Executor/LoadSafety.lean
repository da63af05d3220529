import Borealis.Executor.Containment
import Borealis.Executor.FlatRun

/-!
# Loads stay in live blocks

A load succeeds exactly in the blocks of the live allocations (`load_iff_live`), in every run of
operations, also of such that throw, that come only to pairs of chunks that live blocks cover:
there every walk finds the nodes it creates already in use.  What a load then reports is backed: a
known state, or a chunk with a buffer.
-/

namespace Borealis

open Lib

variable {L : Layout}

/-- Live blocks cover the addresses from `q` on. -/
def Session.Held (s : Session) (q size : ℕ) : Prop :=
  ∀ a, q ≤ a → a < q + size → ∃ A ∈ s.live, A.Covers a

/-- Live blocks cover every chunk, and every pair of chunks below one node, that an operation on
`size` bytes at `addr` comes to. -/
def Session.HoldsPairs (L : Layout) (s : Session) (addr size : ℕ) : Prop :=
  ∀ k q, k ≤ 1 → IsNode L.chunkSize L.power Layout.start k q →
    q < addr + max 1 (reach addr size) → addr < q + span L.chunkSize k →
      s.Held q (span L.chunkSize k)

/-- The other chunk of the pair of the chunk at `p` lies in a live block. -/
def Session.HoldsNeighbour (L : Layout) (s : Session) (p : ℕ) : Prop :=
  ∀ q, IsNode L.chunkSize L.power Layout.start 1 q → q ≤ p → p < q + span L.chunkSize 1 →
    ∀ a, q ≤ a → a < q + span L.chunkSize 1 → ¬ (p ≤ a ∧ a < p + L.chunkSize) →
      ∃ A ∈ s.live, A.Covers a

/-- The operations that make no loose chunk: blocks are handed out where none was before, beside a
live block where a block is one chunk, and the pairs of chunks that stores and memsets come to lie
in live blocks.  Sizes are machine integers. -/
def Session.Careful (L : Layout) (s : Session) (op : Op) : Prop :=
  s.Placed L s.issued op ∧
    (∀ r, s.request op = some r →
      calcRealMemoryAmount r.amount L.chunkSize = .ok L.chunkSize →
        s.HoldsNeighbour L (r.base + roundUp r.offset L.chunkSize)) ∧
    match op with
    | .store addr data => data.length < 2 ^ 64 ∧ s.HoldsPairs L addr data.length
    | .memset addr _ size => size < 2 ^ 64 ∧ s.HoldsPairs L addr size
    | _ => True

/-- The tree has no loose chunks. -/
structure Session.Contained (L : Layout) (s : Session) : Prop where
  tracked : s.Tracked L
  live_issued : ∀ A ∈ s.live, A ∈ s.issued
  tight : Tight L.chunkSize s.Issued L.power Layout.start s.root

theorem Session.init_contained (L : Layout) : (Session.init L).Contained L where
  tracked := Session.init_tracked L
  live_issued := by simp [Session.init]
  tight := .null

namespace Session.Contained

variable {s : Session}

/-- The owners of an address are the live blocks over it. -/
theorem owners_ne_nil_iff (h : s.Tracked L) {a : ℕ} (hlo : Layout.start ≤ a) (hhi : a < L.stop) :
    owners L.chunkSize L.power Layout.start s.root a ≠ [] ↔ ∃ A ∈ s.live, A.Covers a := by
  rw [h.owners a hlo hhi, Ne, List.map_eq_nil_iff, List.filter_eq_nil_iff]
  simp

theorem paired (h : s.Tracked L) {addr size : ℕ} (hpairs : s.HoldsPairs L addr size) :
    Paired L.chunkSize L.power Layout.start s.root addr size := by
  intro k q hk hq hlt hgt a hlo hhi
  have hend : q + span L.chunkSize k ≤ L.stop := hq.end_le
  refine (owners_ne_nil_iff h (hq.le_base.trans hlo) (by omega)).mpr ?_
  exact hpairs k q hk hq hlt hgt a hlo hhi

/-- A walk that changes neither the owners nor the history keeps the tree without loose chunks. -/
theorem of_walk {s' : Session} (h : s.Contained L) (htracked : s'.Tracked L)
    (hissued : s'.issued = s.issued) (hlive : s'.live = s.live)
    (htight : Tight L.chunkSize s.Issued L.power Layout.start s'.root) : s'.Contained L := by
  refine ⟨htracked, fun A hA => ?_, htight.mono fun a ha => ?_⟩
  · rw [hissued]
    exact h.live_issued A (hlive ▸ hA)
  · rwa [Session.Issued, hissued]

/-- A granted request makes its node a block. -/
theorem perform_request {op : Op} {r : Request} (h : s.Contained L)
    (hr : s.request op = some r) (hcareful : s.Careful L op) :
    (s.perform op).2.Contained L := by
  obtain ⟨hplaced, hneighbour, -⟩ := hcareful
  by_cases hbig : L.TooBig r.amount
  · rw [Session.perform_tooBig h.tracked.layout hr hbig]
    exact h
  have htracked := h.tracked.perform_request hr (hplaced.mono h.live_issued)
  obtain ⟨k, sim, hlevel, hcalc, hplace, hnode, hperform, -, hroot, hapart⟩ :=
    h.tracked.grant hr hplaced hbig
  rw [hperform] at htracked ⊢
  refine ⟨htracked, fun A hA => ?_, ?_⟩
  · rcases List.mem_cons.mp hA with rfl | hA
    · exact List.mem_cons_self
    · exact List.mem_cons_of_mem _ (h.live_issued A hA)
  have hknown : r.state ≠ .unknown := by
    rcases Session.Framed.request_state hr with hstate | hstate <;> simp [hstate]
  have hnew : ∀ a, r.place (span L.chunkSize k) ≤ a →
      a < r.place (span L.chunkSize k) + span L.chunkSize k → ¬ s.Issued a := by
    rintro a hlo hhi ⟨A, hA, hcovers⟩
    exact Allocation.not_covers (A := r.allocation L.chunkSize k) (hapart A hA) ⟨hlo, hhi⟩ hcovers
  -- a block of one chunk has a neighbour
  have hpair : Neighboured L.chunkSize L.power Layout.start s.root k
      (r.place (span L.chunkSize k)) := by
    rintro rfl q hq hle hlt a hlo hhi hout
    rw [span_zero] at hcalc hplace hout
    have hend : q + span L.chunkSize 1 ≤ L.stop := hq.end_le
    rw [span_zero, hplace] at hle hlt
    rw [hplace] at hout
    exact (owners_ne_nil_iff h.tracked (hq.le_base.trans hlo) (by omega)).mpr
      (hneighbour r hr hcalc q hq hle hlt a hlo hhi hout)
  have hroot' : ({ s with sim }.issue (r.allocation L.chunkSize k)).root = _ := hroot
  rw [hroot']
  refine (tight_alloc L.pos hlevel (Session.Tracked.request_status hr) hknown hnode s.root h.tight
    hnew hpair).mono fun a ha => ?_
  rcases ha with hcovers | ⟨A, hA, hcovers⟩
  · exact ⟨r.allocation L.chunkSize k, List.mem_cons_self, hcovers⟩
  · exact ⟨A, List.mem_cons_of_mem _ hA, hcovers⟩

/-- A release makes no loose chunk, whatever becomes of it. -/
theorem perform_release {op : Op} {addr : ℕ} {st : MemoryStatus} (h : s.Contained L)
    (hop : op.releases = some (addr, st)) : (s.perform op).2.Contained L := by
  have htracked := h.tracked.perform_release hop
  rcases Session.freeWalk h.tracked.layout hop with herror | ⟨result, root, hperform, hwalk⟩
  · rw [herror]
    exact h
  have htight := hwalk.tight L.pos (Session.releases_status hop) h.tight h.tracked.one
  rw [hperform] at htracked ⊢
  cases result with
  | error e => exact ⟨htracked, h.live_issued, htight⟩
  | ok v => exact ⟨htracked, fun A hA => h.live_issued A (List.mem_filter.mp hA).1, htight⟩

/-- The step lemma. -/
theorem step {s' : Session} {op : Op} (h : s.Contained L) (hcareful : s.Careful L op)
    (hstep : s.step op = some s') : s'.Contained L := by
  have htracked := h.tracked.step (hcareful.1.mono h.live_issued) hstep
  rw [Session.step_eq_some hstep] at htracked ⊢
  have hstop := L.stop_lt
  cases op with
  | allocateMemory amount => exact h.perform_request rfl hcareful
  | mallocMemory amount fillWith => exact h.perform_request rfl hcareful
  | deallocateMemory addr => exact h.perform_release rfl
  | freeMemory addr => exact h.perform_release rfl
  | store addr data =>
      obtain ⟨-, -, hsize, hpairs⟩ := hcareful
      exact h.of_walk htracked (Session.settle_issued fun _ _ => rfl) (Session.store_live addr data)
        ((Session.storeWalk h.tracked.layout addr data).tight L.pos hsize hstop h.tight
          (paired h.tracked hpairs))
  | memset addr fill size =>
      obtain ⟨-, -, hsize, hpairs⟩ := hcareful
      rcases Session.memsetWalk h.tracked.layout addr fill size with herror | hwalk
      · rw [herror]
        exact h
      · exact h.of_walk htracked (Session.settle_issued fun _ _ => rfl)
          (Session.memset_live addr fill size)
          (hwalk.tight L.pos hsize hstop h.tight (paired h.tracked hpairs))

end Session.Contained

/-- A chunk, or a node with a known state, is found where there is an owner. -/
theorem Tight.ok_of_owners {c h lo a : ℕ} {issued : ℕ → Prop} {t : NodePtr}
    (ht : Tight c issued h lo t) (howners : owners c h lo t a ≠ []) :
    ∃ i, Borealis.peek c h lo t a = .ok i := by
  induction ht with
  | null => exact absurd owners_null howners
  | bare hs => exact absurd (by simp [owners, SegmentNode.owner, hs]) howners
  | @block h lo n l r hs _ hsolid =>
      obtain ⟨i, hi, -⟩ := hsolid.peek c lo a
      exact ⟨i, hi⟩
  | @path h lo n l r hs hn _ _ _ ihl ihr =>
      have howner : n.owner lo = [] := by simp [SegmentNode.owner, hs]
      rcases Nat.lt_or_ge a (lo + span c h) with ha | ha
      · rw [owners_left ha, NodePtr.force_node, howner] at howners
        rw [peek_left hn ha]
        exact ihl howners
      · rw [owners_right ha, NodePtr.force_node, howner] at howners
        rw [peek_right hn ha]
        exact ihr howners

/-- **Loads stay in live blocks**: in a run of careful operations, also of such that throw, a load
of an address of the tree is illegal, or the address lies in the block of a live allocation; there
every load succeeds, and reports a known state or a chunk that has a buffer. -/
theorem load_iff_live (L : Layout) {s : Session}
    (hrun : Reachable Session.step (Session.Careful L) (Session.init L) s) {a : ℕ}
    (hlo : Layout.start ≤ a) (hhi : a < L.stop) :
    ((∃ i, s.get a = .ok i) ↔ ∃ A ∈ s.live, A.Covers a) ∧
      (s.get a = .error (.illegalLoad a) ∨ ∃ i, s.get a = .ok i ∧ i.Backed) := by
  have h : s.Contained L :=
    hrun.invariant (Session.init_contained L) fun _ _ _ h hcareful hstep => h.step hcareful hstep
  rw [Session.get_eq h.tracked.layout hlo hhi, ← Session.Contained.owners_ne_nil_iff h.tracked hlo hhi]
  refine ⟨⟨fun ⟨i, hi⟩ => ?_, h.tight.ok_of_owners⟩, ?_⟩
  · rcases h.tight.peek a with herror | ⟨howners, -⟩
    · rw [hi] at herror
      cases herror
    · exact howners
  · exact (h.tight.peek a).imp_right fun ⟨_, hbacked⟩ => hbacked

/-- Sixteen zeroed bytes of heap, two of which are overwritten. -/
def Session.overwritten : Session :=
  (((Session.init eightChunks).perform (.mallocMemory 16 .zero)).2.perform
    (.store (2 ^ 20 + 34) [1, 2])).2

theorem load_iff_live_overwritten :
    ((∃ i, Session.overwritten.get (2 ^ 20 + 50) = .ok i) ↔
      ∃ A ∈ Session.overwritten.live, A.Covers (2 ^ 20 + 50)) ∧
      (Session.overwritten.get (2 ^ 20 + 50) = .error (.illegalLoad (2 ^ 20 + 50)) ∨
        ∃ i, Session.overwritten.get (2 ^ 20 + 50) = .ok i ∧ i.Backed) := by
  have hplaced : (Session.init eightChunks).Placed eightChunks [] (.mallocMemory 16 .zero) :=
    Session.placed_of_room rfl (show _ = Except.ok 16 from rfl) (by decide) (by decide)
  have hrun : Reachable Session.step (Session.Careful eightChunks) (Session.init eightChunks) _ :=
    .init
  have hrun₁ := Session.reachable_perform hrun (.mallocMemory 16 .zero) ⟨hplaced, ?_, trivial⟩ rfl
  have hpairs : ((Session.init eightChunks).perform (.mallocMemory 16 .zero)).2.HoldsPairs
      eightChunks (2 ^ 20 + 34) 2 := by
    intro k q hk hq hlt hgt a hlo hhi
    obtain ⟨j, hj⟩ := hq.dvd_base
    have hbase := hq.le_base
    refine ⟨⟨2 ^ 20 + 32, 16, 16, .malloc, .memset⟩, by decide, ?_⟩
    have hreach : max 1 (reach (2 ^ 20 + 34) 2) = 2 := by decide
    rw [hreach] at hlt
    simp only [Allocation.Covers, eightChunks, Layout.start] at *
    rcases Nat.le_one_iff_eq_zero_or_eq_one.mp hk with rfl | rfl
    · rw [show span 8 0 = 8 from rfl] at hj hgt hhi
      omega
    · rw [show span 8 1 = 16 from rfl] at hj hgt hhi
      omega
  have hrun₂ := Session.reachable_perform hrun₁ (.store (2 ^ 20 + 34) [1, 2])
    ⟨Session.placed_of_request_none rfl, (fun r hr => by cases hr), by decide, hpairs⟩ rfl
  · exact load_iff_live eightChunks hrun₂ (by decide) (by decide)
  · rintro r hr hreal
    obtain rfl := Option.some.inj hr
    cases hreal

end Borealis
