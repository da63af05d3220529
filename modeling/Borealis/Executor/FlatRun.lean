import Borealis.Executor.FlatMemory
import Borealis.Executor.StoreBounds
import Mathlib.Data.List.Find

/-!
# The simulator as a flat memory

The history of a session is a flat memory: the byte stored last at each live address, and what the
block was filled with where nothing was stored.  The tree reports it as long as every store
overwrites all that is not known byte by byte in the chunks it touches.  Otherwise the rest of the
chunk is forgotten, because the buffer of a chunk is created without what its node said before.
-/

namespace Borealis

open Lib

variable {L : Layout}

/-- What a load of a byte of the block reports before anything was stored there. -/
def Allocation.initial (A : Allocation) : Reading :=
  if A.state = .memset then .memset 0 else .uninit

/-- What a load of a byte of a live block should report. -/
def Session.reading (s : Session) (A : Allocation) (a : ℕ) : Reading :=
  match s.written a with
  | some b => .byte b
  | none => A.initial

/-- The history as a flat memory. -/
def Session.flat (s : Session) : Flat := fun a =>
  (s.live.find? fun A => A.Contains a).map fun A => s.reading A a

/-- The addresses that were ever handed out. -/
def Session.Issued (s : Session) (a : ℕ) : Prop :=
  ∃ A ∈ s.issued, A.Covers a

/-- A store of `size` bytes at `addr` leaves no live byte without a known value in the chunks it
touches. -/
def Session.Completes (L : Layout) (s : Session) (addr size : ℕ) : Prop :=
  ∀ a, L.chunkOf addr ≤ L.chunkOf a → L.chunkOf a ≤ L.chunkOf (addr + (size - 1)) →
    ∀ A ∈ s.live, A.Contains a → (addr ≤ a ∧ a < addr + size) ∨ (s.written a).isSome

/-- The operations that keep the simulator a flat memory: they return, blocks are handed out where
no block was before, and stores complete the chunks they touch. -/
def Session.Regular (L : Layout) (s : Session) (op : Op) : Prop :=
  (s.perform op).1 = .ok () ∧ s.Placed L s.issued op ∧
    match op with
    | .store addr data => s.Completes L addr data.length
    | .memset _ _ _ => False
    | _ => True

/-- The tree stands for the history. -/
structure Session.Framed (L : Layout) (s : Session) : Prop where
  tracked : s.Tracked L
  live_issued : ∀ A ∈ s.live, A ∈ s.issued
  frames : Frames L.chunkSize s.flat s.Issued L.power Layout.start s.root

theorem Session.init_framed (L : Layout) : (Session.init L).Framed L where
  tracked := Session.init_tracked L
  live_issued := by simp [Session.init]
  frames := .null fun _ _ _ => rfl

namespace Session.Framed

variable {s : Session}

theorem flat_eq_some {a : ℕ} {v : Reading} (hv : s.flat a = some v) :
    ∃ A ∈ s.live, A.Contains a ∧ v = s.reading A a := by
  obtain ⟨A, hA, rfl⟩ := Option.map_eq_some_iff.mp hv
  have hcontains := List.find?_some hA
  exact ⟨A, List.mem_of_find?_eq_some hA, by simpa using hcontains, rfl⟩

theorem find?_live (h : s.Tracked L) {A : Allocation} (hA : A ∈ s.live) {a : ℕ}
    (ha : A.Contains a) : (s.live.find? fun A => A.Contains a) = some A := by
  have hsome : (s.live.find? fun A => A.Contains a).isSome :=
    List.find?_isSome.mpr ⟨A, hA, by simpa using ha⟩
  obtain ⟨B, hB⟩ := Option.isSome_iff_exists.mp hsome
  have hBlive := List.mem_of_find?_eq_some hB
  have hBcontains : B.Contains a := by simpa using List.find?_some hB
  rw [hB, h.eq_of_covers hA hBlive ((h.block A hA).covers ha) ((h.block B hBlive).covers hBcontains)]

/-- The flat memory has the reading of the one live block that contains the address. -/
theorem flat_eq (h : s.Tracked L) {A : Allocation} (hA : A ∈ s.live) {a : ℕ}
    (ha : A.Contains a) : s.flat a = some (s.reading A a) := by
  rw [Session.flat, find?_live h hA ha]
  rfl

theorem flat_eq_none {a : ℕ} (hnone : ∀ A ∈ s.live, ¬ A.Contains a) : s.flat a = none := by
  rw [Session.flat, Option.map_eq_none_iff, List.find?_eq_none]
  intro A hA
  simpa using hnone A hA

/-! ## Requests -/

theorem request_state {op : Op} {r : Request} (hr : s.request op = some r) :
    r.state = .uninit ∨ r.state = .memset := by
  cases op with
  | allocateMemory amount =>
      obtain rfl := Option.some.inj hr
      exact Or.inl rfl
  | mallocMemory amount fillWith =>
      obtain rfl := Option.some.inj hr
      cases fillWith
      · exact Or.inl rfl
      · exact Or.inr rfl
  | _ => cases hr

theorem reading_allocate {n : SegmentNode} {state : MemoryState} (status : MemoryStatus) (size : ℕ)
    (hstate : state = .uninit ∨ state = .memset) :
    (n.allocate state status size).reading =
      some (if state = .memset then .memset 0 else .uninit) := by
  rcases hstate with rfl | rfl <;> rfl

/-- A new block adds its initial readings to the flat memory. -/
theorem flat_issue (h : s.Tracked L) {A : Allocation} (hamount : A.amount ≤ A.real)
    (hapart : ∀ B ∈ s.live, A.Apart B) (sim : MemorySimulator) (a : ℕ) :
    ({ s with sim }.issue A).flat a = s.flat.allocated A.base A.real A.amount A.initial a := by
  have hflat : ({ s with sim }.issue A).flat a =
      ((A :: s.live).find? fun B => B.Contains a).map fun B =>
        ({ s with sim }.issue A).reading B a := rfl
  rw [hflat, List.find?_cons]
  by_cases hcovers : A.Covers a
  · have hblock : A.base ≤ a ∧ a < A.base + A.real := hcovers
    have hwritten : ({ s with sim }.issue A).written a = none := if_pos hcovers
    by_cases hcontains : A.Contains a
    · simp only [hcontains, decide_true, Option.map_some, Session.reading, hwritten,
        Flat.allocated, hblock, and_self, if_true, hcontains.2]
    · -- the bytes behind those that were asked for belong to no live block
      have hnone : s.live.find? (fun B => B.Contains a) = none := by
        rw [List.find?_eq_none]
        intro B hB hBcontains
        exact Allocation.not_covers (hapart B hB) hcovers
          ((h.block B hB).covers (by simpa using hBcontains))
      have hpast : ¬ a < A.base + A.amount := fun hlt => hcontains ⟨hblock.1, hlt⟩
      simp only [hcontains, decide_false, hnone, Option.map_none, Flat.allocated, hblock, and_self,
        if_true, hpast, if_false]
  · have hcontains : ¬ A.Contains a := fun hc => hcovers ⟨hc.1, by have := hc.2; omega⟩
    have hwritten : ({ s with sim }.issue A).written a = s.written a := if_neg hcovers
    rw [Flat.allocated_of_outside hcovers]
    simp only [hcontains, decide_false, Session.flat, Session.reading, hwritten]

/-- A request that returns keeps the simulator a flat memory. -/
theorem perform_request {op : Op} {r : Request} (h : s.Framed L) (hr : s.request op = some r)
    (hok : (s.perform op).1 = .ok ()) (hplaced : s.Placed L s.issued op) :
    (s.perform op).2.Framed L := by
  have hbig : ¬ L.TooBig r.amount := by
    intro hbig
    rw [Session.perform_tooBig h.tracked.layout hr hbig] at hok
    cases hok
  have htracked := h.tracked.perform_request hr (hplaced.mono h.live_issued)
  obtain ⟨k, sim, hlevel, -, -, hnode, hperform, hsim, hroot, hapart⟩ :=
    h.tracked.grant hr hplaced hbig
  rw [hperform] at htracked ⊢
  refine ⟨htracked, ?_, ?_⟩
  · intro A hA
    rcases List.mem_cons.mp hA with rfl | hA
    · exact List.mem_cons_self
    · exact List.mem_cons_of_mem _ (h.live_issued A hA)
  · have hstate := request_state hr
    have hknown : r.state ≠ .unknown := by
      rcases hstate with hstate | hstate <;> simp [hstate]
    have hnew : ∀ a, r.place (span L.chunkSize k) ≤ a →
        a < r.place (span L.chunkSize k) + span L.chunkSize k → ¬ s.Issued a := by
      rintro a hlo hhi ⟨A, hA, hcovers⟩
      exact Allocation.not_covers (A := r.allocation L.chunkSize k) (hapart A hA) ⟨hlo, hhi⟩ hcovers
    have hframes := frames_alloc L.pos hlevel (Session.Tracked.request_status hr) hknown
      (fun n => reading_allocate r.status r.amount hstate) hnode s.root h.frames hnew
    have hroot' : ({ s with sim }.issue (r.allocation L.chunkSize k)).root = _ := hroot
    rw [hroot']
    refine hframes.congr (fun a _ _ => ?_) fun a ha => ?_
    · exact flat_issue h.tracked hlevel.le (fun A hA => hapart A (h.live_issued A hA)) sim a
    · rcases ha with hcovers | ⟨A, hA, hcovers⟩
      · exact ⟨r.allocation L.chunkSize k, List.mem_cons_self, hcovers⟩
      · exact ⟨A, List.mem_cons_of_mem _ hA, hcovers⟩

/-! ## Stores -/

/-- An accepted store lies in the tree. -/
theorem inNode_of_ok (h : s.Tracked L) {addr : ℕ} {data : List UInt8}
    (hok : (s.perform (.store addr data)).1 = .ok ()) :
    InNode L.chunkSize L.power Layout.start addr data.length := by
  have hwalk := Session.storeWalk h.layout addr data
  have hstop := L.stop_lt
  have hwrap : addr + data.length < 2 ^ 64 := by
    have hlt := hwalk.lt_of_ok hok
    have hmax : Layout.start + span L.chunkSize L.power + L.chunkSize ≤ 2 ^ 64 :=
      L.stop_add_chunkSize_le
    exact hlt.trans_le hmax
  have hend : addr + data.length ≤ L.stop := by
    refine hwalk.le_of_ok hok hwrap hstop (fun a hlo hhi o ho => ?_) (by simp)
    rw [h.owners a hlo hhi, List.mem_map] at ho
    obtain ⟨A, hA, rfl⟩ := ho
    obtain ⟨⟨k, hlevel, -, hnode⟩, -⟩ := h.block A (List.mem_filter.mp hA).1
    have hA : A.base + span L.chunkSize k ≤ L.stop := hnode.end_le
    have hamount := hlevel.le
    simp only [Allocation.owner]
    omega
  have hmem := hwalk.mem_of_ok hok
  exact ⟨hmem.1, hmem.2, hend, hstop⟩

/-- The bytes of an accepted store are live. -/
theorem inBlocks_of_ok (h : s.Tracked L) {addr : ℕ} {data : List UInt8}
    (hok : (s.perform (.store addr data)).1 = .ok ()) : s.InBlocks addr data.length := by
  have hin := inNode_of_ok h hok
  rcases Nat.eq_zero_or_pos data.length with hzero | hpos
  · intro a ha ha'
    omega
  · exact (h.store_acceptedIf hpos hin.lo_le hin.le_hi).ok_iff.mp hok

/-- The history follows a store that completes the chunks it touches. -/
theorem flat_stored (h : s.Tracked L) {addr : ℕ} {data : List UInt8} (sim : MemorySimulator)
    (hblocks : s.InBlocks addr data.length) (hcompletes : s.Completes L addr data.length) :
    Flat.Stored L.chunkSize L.power Layout.start addr data s.flat
      ({ s with sim }.stored addr data).flat where
  inside a hlo hhi ha ha' := by
    obtain ⟨A, hA, hcontains⟩ := hblocks a ha ha'
    have hwritten : ({ s with sim }.stored addr data).written a = data[a - addr]? :=
      if_pos ⟨ha, ha'⟩
    have hi : a - addr < data.length := by omega
    have hget : data[a - addr]? = some data[a - addr] := List.getElem?_eq_getElem hi
    show ((s.live.find? fun A => A.Contains a).map fun A => _) = _
    rw [find?_live h hA hcontains]
    simp only [Option.map_some, Session.reading, hwritten, hget]
  outside a hlo hhi hout := by
    have hwritten : ({ s with sim }.stored addr data).written a = s.written a := if_neg hout
    show ((s.live.find? fun A => A.Contains a).map fun A => _) = _
    simp only [Session.reading, hwritten, Session.flat]
  whole q hq hq' hq'' a v ha ha' hout hv := by
    obtain ⟨A, hA, hcontains, rfl⟩ := flat_eq_some hv
    have hpos := L.pos
    have hchunk := L.chunkOf_eq hq ha ha'
    have hfirst : L.chunkOf addr ≤ L.chunkOf a := by
      rw [hchunk, ← L.chunkOf_eq hq (a := q + (L.chunkSize - 1)) (by omega) (by omega)]
      exact L.chunkOf_mono (by omega)
    have hlast : L.chunkOf a ≤ L.chunkOf (addr + (data.length - 1)) := by
      rw [hchunk]
      exact L.chunkOf_mono (by omega)
    rcases hcompletes a hfirst hlast A hA hcontains with hin | hsome
    · exact absurd hin hout
    · obtain ⟨b, hb⟩ := Option.isSome_iff_exists.mp hsome
      exact ⟨b, by simp only [Session.reading, hb]⟩

/-- A store that completes the chunks it touches keeps the simulator a flat memory. -/
theorem perform_store (h : s.Framed L) {addr : ℕ} {data : List UInt8}
    (hok : (s.perform (.store addr data)).1 = .ok ())
    (hcompletes : s.Completes L addr data.length) :
    (s.perform (.store addr data)).2.Framed L := by
  have htracked := h.tracked.step (Session.placed_of_request_none rfl) (Session.step_of_ok hok)
  have hwalk := Session.storeWalk h.tracked.layout addr data
  have hstored := fun sim => flat_stored h.tracked sim (inBlocks_of_ok h.tracked hok) hcompletes
  have hin := inNode_of_ok h.tracked hok
  obtain ⟨v, hperform⟩ := Session.settle_of_ok hok
  have hstep : s.perform (.store addr data) = (.ok (), _) := hperform
  rw [hstep] at htracked hwalk ⊢
  exact ⟨htracked, h.live_issued,
    (hwalk.frames rfl L.pos rfl h.frames (hstored _) hin).2⟩

/-! ## Releases -/

/-- The history follows a release. -/
theorem flat_released (h : s.Tracked L) (addr : ℕ) (st : MemoryStatus) (sim : MemorySimulator) :
    Flat.Released L.chunkSize L.power Layout.start s.root addr st s.flat
      ({ s with sim }.released addr st).flat where
  gone a hlo hhi o ho hgone := by
    rw [h.owners a hlo hhi, List.mem_map] at ho
    obtain ⟨A, hA, rfl⟩ := ho
    obtain ⟨hA, hcovers⟩ := List.mem_filter.mp hA
    refine flat_eq_none fun B hB hcontains => ?_
    obtain ⟨hB, hkept⟩ := List.mem_filter.mp hB
    -- the only live block over the address is the one that goes
    obtain rfl : A = B := h.eq_of_covers hA hB (by simpa using hcovers) ((h.block B hB).covers hcontains)
    exact hgone hkept
  kept a hlo hhi hall := by
    show ((s.live.filter _).find? _).map _ = (s.live.find? _).map _
    rw [List.find?_filter]
    refine congrArg (Option.map _) (List.find?_congr fun A hA => ?_)
    by_cases hcontains : A.Contains a
    · have howner : A.owner ∈ owners L.chunkSize L.power Layout.start s.root a := by
        rw [h.owners a hlo hhi]
        exact List.mem_map_of_mem
          (List.mem_filter.mpr ⟨hA, decide_eq_true ((h.block A hA).covers hcontains)⟩)
      have hkept : ¬ (A.base = addr ∧ A.status = st) := of_decide_eq_true (hall _ howner)
      simp [hcontains, hkept]
    · simp [hcontains]

/-- A release that returns keeps the simulator a flat memory. -/
theorem perform_release (h : s.Framed L) {op : Op} {addr : ℕ} {st : MemoryStatus}
    (hop : op.releases = some (addr, st)) (hok : (s.perform op).1 = .ok ()) :
    (s.perform op).2.Framed L := by
  have htracked := h.tracked.perform_release hop
  rcases Session.freeWalk h.tracked.layout hop with herror | ⟨result, root, hperform, hwalk⟩
  · rw [herror] at hok
    cases hok
  · rw [hperform] at hok htracked ⊢
    cases result with
    | error e => cases hok
    | ok v =>
        rw [Session.settle_ok] at htracked ⊢
        exact ⟨htracked, fun A hA => h.live_issued A (List.mem_filter.mp hA).1,
          hwalk.frames L.pos (Session.releases_status hop) h.frames h.tracked.one
            (flat_released h.tracked addr st _)⟩

/-! ## Runs -/

/-- The step lemma: a regular operation keeps the simulator a flat memory. -/
theorem step {s' : Session} {op : Op} (h : s.Framed L) (hregular : s.Regular L op)
    (hstep : s.step op = some s') : s'.Framed L := by
  rw [Session.step_eq_some hstep]
  obtain ⟨hok, hplaced, hop⟩ := hregular
  cases op with
  | allocateMemory amount => exact h.perform_request rfl hok hplaced
  | mallocMemory amount fillWith => exact h.perform_request rfl hok hplaced
  | store addr data => exact h.perform_store hok hop
  | deallocateMemory addr => exact h.perform_release rfl hok
  | freeMemory addr => exact h.perform_release rfl hok
  | memset addr fill size => exact hop.elim

/-- A load of a live byte reports what the flat memory holds. -/
theorem get_eq (h : s.Framed L) {A : Allocation} (hA : A ∈ s.live) {a : ℕ} (ha : A.Contains a) :
    (s.get a).map IntervalState.reading = .ok (some (s.reading A a)) := by
  obtain ⟨⟨k, hlevel, -, hnode⟩, -⟩ := h.tracked.block A hA
  have hamount := hlevel.le
  have hlo := hnode.le_base
  have hend : A.base + span L.chunkSize k ≤ L.stop := hnode.end_le
  have hstart : Layout.start ≤ a := hlo.trans ha.1
  have hstop : a < L.stop := by
    have := ha.2
    omega
  rw [Session.get_eq h.tracked.layout hstart hstop]
  exact h.frames.peek_eq hstart hstop (flat_eq h.tracked hA ha)

end Session.Framed

/-- **The simulator is a flat memory** in a run in which every operation returns, blocks are handed
out where none was before, and every store completes the chunks it touches: a load of a live byte
reports the byte stored there last, and what its block was filled with where nothing was stored. -/
theorem load_flat (L : Layout) {s : Session}
    (hrun : Reachable Session.step (Session.Regular L) (Session.init L) s) {A : Allocation}
    (hA : A ∈ s.live) {a : ℕ} (ha : A.Contains a) :
    (s.get a).map IntervalState.reading = .ok (some (s.reading A a)) := by
  have hinv : s.Framed L :=
    hrun.invariant (Session.init_framed L) fun s op s' h hregular hstep => h.step hregular hstep
  exact hinv.get_eq hA ha

/-- Sixteen zeroed bytes of heap, of which the first eight are overwritten. -/
theorem load_flat_eightChunks :
    ((((Session.init eightChunks).perform (.mallocMemory 16 .zero)).2.perform
      (.store (2 ^ 20 + 32) [1, 2, 3, 4, 5, 6, 7, 8])).2.get (2 ^ 20 + 34)).map
        IntervalState.reading = .ok (some (.byte 3)) := by
  have hplaced : (Session.init eightChunks).Placed eightChunks [] (.mallocMemory 16 .zero) :=
    Session.placed_of_room rfl (show _ = Except.ok 16 from rfl) (by decide) (by decide)
  have hrun : Reachable Session.step (Session.Regular eightChunks) (Session.init eightChunks) _ :=
    .init
  have hrun₁ := Session.reachable_perform hrun (.mallocMemory 16 .zero) ⟨rfl, hplaced, trivial⟩ rfl
  have hcompletes : ((Session.init eightChunks).perform (.mallocMemory 16 .zero)).2.Completes
      eightChunks (2 ^ 20 + 32) 8 := by
    intro a hfirst hlast A hA hcontains
    simp only [Layout.chunkOf, eightChunks, Layout.start] at hfirst hlast
    omega
  have hrun₂ := Session.reachable_perform hrun₁ (.store (2 ^ 20 + 32) [1, 2, 3, 4, 5, 6, 7, 8])
    ⟨rfl, Session.placed_of_request_none rfl, hcompletes⟩ rfl
  exact load_flat eightChunks hrun₂ (A := ⟨2 ^ 20 + 32, 16, 16, .malloc, .memset⟩) (by decide)
    (by decide)

/-- After a store of one byte into a block of eight zeroed bytes, the next byte of the block is
no longer known to be zero: its chunk has a new buffer. -/
theorem load_not_flat :
    ¬ ∀ (L : Layout) (s : Session),
      Reachable Session.step (fun s op => (s.perform op).1 = .ok () ∧ ∀ addr fill size,
        op ≠ .memset addr fill size) (Session.init L) s →
      ∀ A ∈ s.live, ∀ a, A.Contains a →
        (s.get a).map IntervalState.reading = .ok (some (s.reading A a)) := by
  intro hclaim
  have hrun : Reachable Session.step (fun s op => (s.perform op).1 = .ok () ∧ ∀ addr fill size,
      op ≠ .memset addr fill size) (Session.init eightChunks) _ := .init
  have hrun₁ := Session.reachable_perform hrun (.mallocMemory 8 .zero) ⟨rfl, by simp⟩ rfl
  have hrun₂ := Session.reachable_perform hrun₁ (.store (2 ^ 20 + 32) [1]) ⟨rfl, by simp⟩ rfl
  have hload := hclaim eightChunks _ hrun₂ ⟨2 ^ 20 + 32, 8, 8, .malloc, .memset⟩ (by decide)
    (2 ^ 20 + 33) (by decide)
  revert hload
  decide

end Borealis
