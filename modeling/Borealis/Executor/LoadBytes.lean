import Borealis.Executor.Peek
import Borealis.Executor.StoreBounds

/-!
# Loads of several bytes

`MemorySimulator::LoadBytesFromMemory` copies the requested bytes slice by slice, one chunk of the
tree at a time.  A slice that starts in the middle of a chunk is shortened by the offset into the
chunk, and the last slice by the part of the chunk behind the request; a slice that is both is
shortened twice.

## Strategy

`loadLoop` is the loop with the slices it fills.  As long as a slice is not shortened twice it has
the length `min (c - o) rem` for the offset `o` into the chunk and the `rem` bytes that are left,
and the next one starts at a chunk (`loadLoop_exact`).  Otherwise the loop makes no progress, or
the length wraps, at once or in the next round (`loadLoop_twice`).
-/

namespace Borealis

open Lib

/-- A slice of the buffer: its first index and the bytes copied there, some of which may not have
been initialized. -/
structure Slice where
  first : ℕ
  bytes : List (Option UInt8)
deriving DecidableEq

/-- The bytes of a slice of `size` bytes filled from an interval; an interval without a state has
to have a buffer to read from. -/
def IntervalState.copy (i : IntervalState) (size : ℕ) : Except Fault (List (Option UInt8)) :=
  match i.memState, i.data with
  | .unknown, some (some chunk, offset) =>
    .ok ((List.range size).map fun j => chunk (offset + j))
  | .unknown, _ => .error .assertion
  | _, _ => .ok (List.replicate size (some i.filledWith))

/-- The length of the next slice; the sizes are 64-bit. -/
def sliceSize (chunkSize size offset loaded : ℕ) : ℕ :=
  let currentSize := ptrSub chunkSize (offset % chunkSize)
  if size - loaded < chunkSize then
    let leftover := ptrSub (size - loaded) (offset % chunkSize)
    ptrSub currentSize (ptrSub chunkSize leftover)
  else currentSize

/-- The loop of `LoadBytesFromMemory`: the slices it fills, or nothing for `ValueState::UNKNOWN`.
`buffer.slice` asserts that the slice ends in the buffer. -/
def loadLoop (tree : SegmentTree) (size : ℕ) :
    (fuel : ℕ) → (ptr offset loaded : ℕ) → Except Fault (Option (List Slice))
  | 0, _, _, _ => .error .diverges
  | fuel + 1, ptr, offset, loaded =>
    if ¬ loaded < size then .ok (some [])
    else
      match (tree.get ptr).1 with
      | .error e => .error e
      | .ok current =>
        let currentSize := sliceSize tree.chunkSize size offset loaded
        if ¬ ptrAdd loaded currentSize ≤ size then .error .assertion
        else if current.memState = .uninit then .ok none
        else
          match current.copy currentSize with
          | .error e => .error e
          | .ok bytes =>
            match loadLoop tree size fuel (ptrAdd ptr currentSize) (ptrAdd offset currentSize)
                (ptrAdd loaded currentSize) with
            | .ok (some slices) => .ok (some (⟨loaded, bytes⟩ :: slices))
            | result => result

/-- `LoadBytesFromMemory`.  `globalMemory` stands for the bytes of the memory of global variables,
which is not part of the tree. -/
def MemorySimulator.loadBytesFromMemory (m : MemorySimulator)
    (globalMemory : ℕ → ℕ → Except Fault (List (Option UInt8))) (fuel addr size : ℕ) :
    Except Fault (Option (List Slice)) :=
  if !m.isAPointer addr then .error (.illegalLoad addr)
  else if 2 ^ 10 ≤ addr ∧ addr < 2 ^ 20 then
    match globalMemory addr size with
    | .error e => .error e
    | .ok bytes => .ok (some [⟨0, bytes⟩])
  else loadLoop m.tree size fuel addr (ptrSub addr m.tree.start) 0

/-! ## Loads in one chunk -/

/-- What an interval says about its first byte; it says nothing if that was never initialized or
there is no buffer to read it from.  A byte of a buffer may itself not be initialized. -/
def IntervalState.byte (i : IntervalState) : Option (Option UInt8) :=
  match i.memState, i.data with
  | .unknown, some (some chunk, offset) => some (chunk offset)
  | .unknown, _ => none
  | .memset, _ => some (some i.filledWith)
  | .uninit, _ => none

/-- The bytes copied from an interval are those it says something about. -/
theorem IntervalState.copy_eq {i : IntervalState} {v : Option UInt8} (hv : i.byte = some v)
    (size : ℕ) : ∃ bytes, i.copy size = .ok bytes ∧ bytes.length = size ∧
      ∀ j < size, bytes[j]? = (i.shift j).byte := by
  obtain ⟨data, state, fill⟩ := i
  cases state with
  | memset =>
      refine ⟨_, rfl, by simp, fun j hj => ?_⟩
      simp [shift, byte, hj]
  | uninit => cases hv
  | unknown =>
      rcases data with _ | ⟨_ | chunk, offset⟩
      · cases hv
      · cases hv
      · refine ⟨_, rfl, by simp, fun j hj => ?_⟩
        simp [shift, byte, hj]

theorem Layout.exists_chunk (L : Layout) (offset : ℕ) (hoffset : start + offset < L.stop) :
    ∃ q, IsNode L.chunkSize L.power start 0 q ∧ q + offset % L.chunkSize = start + offset := by
  obtain ⟨q, hq, hqlo, hqhi⟩ := IsNode.exists_leaf (Nat.le_add_right start offset) hoffset
  refine ⟨q, hq, ?_⟩
  have hbase := hq.le_base
  obtain ⟨j, hj⟩ := hq.dvd_base
  rw [span_zero] at hj
  have hsplit : offset = start + offset - q + L.chunkSize * j := by omega
  have hmod : offset % L.chunkSize = start + offset - q := by
    conv_lhs => rw [hsplit]
    rw [Nat.add_mul_mod_self_left, Nat.mod_eq_of_lt (by omega)]
  omega

/-! ## The length of a slice -/

section SliceSize

variable {c size offset loaded : ℕ}

/-- A slice that is not shortened twice ends with its chunk or with the request. -/
theorem sliceSize_eq_min (hc : 0 < c) (hc' : c < 2 ^ 64)
    (hloaded : loaded < size) (honce : offset % c = 0 ∨ c ≤ size - loaded) :
    sliceSize c size offset loaded = min (c - offset % c) (size - loaded) := by
  have hmod := Nat.mod_lt offset hc
  unfold sliceSize
  split
  · next hlt =>
      have hzero : offset % c = 0 := by omega
      simp only [hzero, ptrSub_of_le (Nat.zero_le _) hc',
        ptrSub_of_le (Nat.zero_le (size - loaded)) (by omega), Nat.sub_zero,
        ptrSub_of_le hlt.le hc', ptrSub_of_le (Nat.sub_le c (size - loaded)) hc']
      omega
  · simp only [ptrSub_of_le hmod.le hc']
    omega

/-- A slice that is shortened twice. -/
theorem sliceSize_twice (hc : 0 < c) (hc' : c < 2 ^ 63) (hlt : size - loaded < c) :
    sliceSize c size offset loaded =
      (2 ^ 64 + (size - loaded) - 2 * (offset % c)) % 2 ^ 64 := by
  have hmod := Nat.mod_lt offset hc
  unfold sliceSize
  rw [if_pos hlt]
  simp only [ptrSub]
  omega

end SliceSize

/-! ## The loop -/

/-- The slices fill the buffer from `first` to `last`, one behind the other, and none is empty. -/
def Tiles (first last : ℕ) : List Slice → Prop
  | [] => first = last
  | p :: rest => p.first = first ∧ 0 < p.bytes.length ∧ Tiles (first + p.bytes.length) last rest

/-- The slice was copied from one chunk, and holds what loads of its bytes report. -/
structure Slice.Copies (L : Layout) (s : Session) (addr : ℕ) (p : Slice) : Prop where
  inChunk : L.chunkOf (addr + p.first + (p.bytes.length - 1)) = L.chunkOf (addr + p.first)
  bytes_eq : ∀ j < p.bytes.length, ∃ i, s.get (addr + p.first + j) = .ok i ∧ p.bytes[j]? = i.byte

/-- Loads of the bytes of the range report a byte each. -/
def Session.Readable (s : Session) (addr size : ℕ) : Prop :=
  ∀ j < size, ∃ i v, s.get (addr + j) = .ok i ∧ i.byte = some v

section Loop

variable {L : Layout} {s : Session} {addr size : ℕ}

theorem Layout.chunkSize_lt (L : Layout) : L.chunkSize < 2 ^ 63 := by
  have hfits := L.fits
  have hle := le_span L.chunkSize L.power
  omega

theorem IntervalState.not_uninit {i : IntervalState} {v : Option UInt8} (hv : i.byte = some v) :
    i.memState ≠ .uninit := by
  intro hstate
  simp [byte, hstate] at hv

/-- One round of the loop that copies a slice. -/
theorem loadLoop_round {tree : SegmentTree} {fuel ptr offset loaded w : ℕ} {i : IntervalState}
    {v : Option UInt8} (hloaded : loaded < size) (hget : (tree.get ptr).1 = .ok i)
    (hv : i.byte = some v) (hw : sliceSize tree.chunkSize size offset loaded = w)
    (hfit : ptrAdd loaded w ≤ size) :
    ∃ bytes, bytes.length = w ∧ (∀ j < w, bytes[j]? = (i.shift j).byte) ∧
      loadLoop tree size (fuel + 1) ptr offset loaded =
        match loadLoop tree size fuel (ptrAdd ptr w) (ptrAdd offset w) (ptrAdd loaded w) with
        | .ok (some slices) => .ok (some (⟨loaded, bytes⟩ :: slices))
        | result => result := by
  obtain ⟨bytes, hcopy, hlength, hbytes⟩ := IntervalState.copy_eq hv w
  refine ⟨bytes, hlength, hbytes, ?_⟩
  simp only [loadLoop, hloaded, not_true, if_false, hget, hw, hfit, IntervalState.not_uninit hv,
    hcopy]

/-- A slice behind the end of the buffer. -/
theorem loadLoop_overrun {tree : SegmentTree} {fuel ptr offset loaded : ℕ}
    (hloaded : loaded < size)
    (hfit : ¬ ptrAdd loaded (sliceSize tree.chunkSize size offset loaded) ≤ size)
    (slices : List Slice) :
    loadLoop tree size fuel ptr offset loaded ≠ .ok (some slices) := by
  cases fuel with
  | zero => simp [loadLoop]
  | succ fuel =>
      simp only [loadLoop, hloaded, not_true, if_false, hfit, not_false_iff, if_true]
      cases (tree.get ptr).1 <;> simp

/-- As long as no slice is shortened twice, the loop copies the rest of the request. -/
theorem loadLoop_exact (hs : s.sim.HasLayout L)
    (hhi : addr + size ≤ L.stop) (hread : s.Readable addr size) (n offset loaded : ℕ)
    (hn : loaded + n = size) (hoffset : Layout.start + offset = addr + loaded)
    (honce : n = 0 ∨ offset % L.chunkSize = 0 ∨ L.chunkSize ≤ n) :
    ∃ fuel slices, loadLoop s.sim.tree size fuel (addr + loaded) offset loaded =
        .ok (some slices) ∧
      Tiles loaded size slices ∧ ∀ p ∈ slices, p.Copies L s addr := by
  have hstop := L.stop_lt
  have hc := L.chunkSize_lt
  induction n using Nat.strong_induction_on generalizing offset loaded with
  | _ n ih =>
      rcases Nat.eq_zero_or_pos n with rfl | hpos
      · obtain rfl : loaded = size := hn
        exact ⟨1, [], by simp only [loadLoop, lt_irrefl, not_false_iff, if_true], rfl, by simp⟩
      have honce := honce.resolve_left hpos.ne'
      obtain ⟨i, v, hget, hv⟩ := hread loaded (by omega)
      obtain ⟨q, hq, hqa⟩ := L.exists_chunk offset (by omega)
      have hmod := Nat.mod_lt offset L.pos
      -- the slice ends with the chunk or with the request
      obtain ⟨w, hw⟩ : ∃ w, w = min (L.chunkSize - offset % L.chunkSize) n := ⟨_, rfl⟩
      have hrem : size - loaded = n := by omega
      have hsize : sliceSize s.sim.tree.chunkSize size offset loaded = w := by
        rw [hs.chunkSize, sliceSize_eq_min L.pos (by omega) (by omega) (by rwa [hrem]), hrem, hw]
      have hnext : n - w = 0 ∨ (offset + w) % L.chunkSize = 0 ∨ L.chunkSize ≤ n - w := by
        by_cases hlast : n = w
        · exact Or.inl (by omega)
        · refine Or.inr (Or.inl ?_)
          have hdiv := Nat.div_add_mod offset L.chunkSize
          have heq : offset + w = L.chunkSize * (offset / L.chunkSize + 1) := by
            rw [Nat.mul_add, Nat.mul_one]
            omega
          rw [heq, Nat.mul_mod_right]
      obtain ⟨fuel, slices, hrest, htiles, hcopies⟩ :=
        ih (n - w) (by omega) (offset + w) (loaded + w) (by omega) (by omega) hnext
      have hadd : ptrAdd loaded w = loaded + w := ptrAdd_of_lt (by omega)
      obtain ⟨bytes, hlength, hbytes, hround⟩ := @loadLoop_round size s.sim.tree fuel _ _ _ w i v
        (by omega) hget hv hsize (by omega)
      refine ⟨fuel + 1, ⟨loaded, bytes⟩ :: slices, ?_, ⟨rfl, by simp only; omega, ?_⟩, ?_⟩
      · have hptr : addr + loaded + w = addr + (loaded + w) := Nat.add_assoc _ _ _
        rw [hround, hadd, ptrAdd_of_lt (by omega), ptrAdd_of_lt (by omega), hptr, hrest]
      · simp only [hlength]
        exact htiles
      · intro p hp
        rcases List.mem_cons.mp hp with rfl | hp
        · refine ⟨?_, fun j hj => ⟨i.shift j, ?_, hbytes j (hlength ▸ hj)⟩⟩
          · simp only [hlength]
            rw [L.chunkOf_eq hq (a := addr + loaded) (by omega) (by omega)]
            exact L.chunkOf_eq hq (by omega) (by omega)
          · simp only [hlength] at hj
            have hpeek := (Session.get_eq hs (by omega) (by omega)).symm.trans hget
            show s.get (addr + loaded + j) = _
            rw [Session.get_eq hs (by omega) (by omega)]
            have hextent := @le_extent _ _ _ _ s.root q hq (by omega) (show addr + loaded < _ by omega)
            exact peek_shift (by omega) (by omega) hpeek
        · exact hcopies p hp

/-- After a round, the rest of the loop has to return as well. -/
theorem loadLoop_round_ne {tree : SegmentTree} {fuel ptr offset loaded w : ℕ} {i : IntervalState}
    {v : Option UInt8} (hloaded : loaded < size) (hget : (tree.get ptr).1 = .ok i)
    (hv : i.byte = some v) (hw : sliceSize tree.chunkSize size offset loaded = w)
    (hfit : ptrAdd loaded w ≤ size)
    (hrest : ∀ rest, loadLoop tree size fuel (ptrAdd ptr w) (ptrAdd offset w) (ptrAdd loaded w) ≠
      .ok (some rest)) (slices : List Slice) :
    loadLoop tree size (fuel + 1) ptr offset loaded ≠ .ok (some slices) := by
  obtain ⟨bytes, -, -, hround⟩ := @loadLoop_round size tree fuel ptr offset loaded w i v hloaded
    hget hv hw hfit
  rw [hround]
  cases hres : loadLoop tree size fuel (ptrAdd ptr w) (ptrAdd offset w) (ptrAdd loaded w) with
  | error e => simp
  | ok result =>
      cases result with
      | none => simp
      | some rest => exact absurd hres (hrest rest)

/-- A first slice that is shortened twice is the end of the load: it is empty and the loop stays
where it is, or it is followed by a slice, if it is not one itself, whose length wraps. -/
theorem loadLoop_twice (hs : s.sim.HasLayout L) (hhi : addr + size ≤ L.stop)
    (hread : s.Readable addr size) {offset : ℕ} (hoffset : Layout.start + offset = addr)
    (hmid : 0 < offset % L.chunkSize) (hpos : 0 < size) (hlt : size < L.chunkSize) (fuel : ℕ)
    (slices : List Slice) :
    loadLoop s.sim.tree size fuel addr offset 0 ≠ .ok (some slices) := by
  have hstop := L.stop_lt
  have hc := L.chunkSize_lt
  have hmod := Nat.mod_lt offset L.pos
  have hfirst : sliceSize s.sim.tree.chunkSize size offset 0 =
      (2 ^ 64 + size - 2 * (offset % L.chunkSize)) % 2 ^ 64 := by
    rw [hs.chunkSize, sliceSize_twice L.pos hc (by omega), Nat.sub_zero]
  obtain ⟨i, v, hget, hv⟩ := hread 0 hpos
  rcases Nat.lt_trichotomy size (2 * (offset % L.chunkSize)) with hless | heq | hmore
  · refine loadLoop_overrun hpos ?_ slices
    rw [hfirst]
    simp only [ptrAdd]
    omega
  · -- no progress: the next round is the same one
    have hzero : sliceSize s.sim.tree.chunkSize size offset 0 = 0 := by
      rw [hfirst]
      omega
    induction fuel generalizing slices with
    | zero => simp [loadLoop]
    | succ fuel ih =>
        refine loadLoop_round_ne hpos hget hv hzero (by simp [ptrAdd]) (fun rest => ?_) slices
        rw [ptrAdd_of_lt (by omega), ptrAdd_of_lt (by omega), ptrAdd_of_lt (by omega)]
        exact ih rest
  · -- the next slice ends behind the buffer
    obtain ⟨d, hd⟩ := Nat.exists_eq_add_of_le hmore.le
    have hw : sliceSize s.sim.tree.chunkSize size offset 0 = d := by
      rw [hfirst]
      omega
    have hnext : (offset + d) % L.chunkSize = offset % L.chunkSize + d := by
      rw [Nat.add_mod, Nat.mod_eq_of_lt (show d < L.chunkSize by omega),
        Nat.mod_eq_of_lt (by omega)]
    cases fuel with
    | zero => simp [loadLoop]
    | succ fuel =>
        have hadd : ptrAdd 0 d = d := by rw [ptrAdd_of_lt (by omega), Nat.zero_add]
        refine loadLoop_round_ne hpos hget hv hw (by omega) (fun rest => ?_) slices
        rw [hadd, ptrAdd_of_lt (a := offset) (by omega)]
        refine loadLoop_overrun (by omega) ?_ rest
        rw [hs.chunkSize, sliceSize_twice L.pos hc (by omega), hnext]
        simp only [ptrAdd]
        omega

end Loop

/-! ## Sessions -/

section Session

variable {L : Layout} {s : Session} {addr size : ℕ}

theorem Session.get_outside (hs : s.sim.HasLayout L) {a : ℕ}
    (hout : ¬ (Layout.start ≤ a ∧ a < L.stop)) : s.get a = .error .assertion := by
  simp only [Session.get, SegmentTree.get, hs.run_eq, descend_outside hout]
  rfl

/-- A load that returns is one in the tree. -/
theorem Session.mem_of_get (hs : s.sim.HasLayout L) {a : ℕ} {i : IntervalState}
    (hget : s.get a = .ok i) : Layout.start ≤ a ∧ a < L.stop := by
  by_contra hout
  rw [Session.get_outside hs hout] at hget
  cases hget

theorem Session.Readable.mem (hs : s.sim.HasLayout L) (hread : s.Readable addr size)
    (hpos : 0 < size) : Layout.start ≤ addr ∧ addr + size ≤ L.stop := by
  obtain ⟨i, v, hget, -⟩ := hread 0 hpos
  obtain ⟨i', v', hget', -⟩ := hread (size - 1) (by omega)
  have hfirst := Session.mem_of_get hs hget
  have hlast := Session.mem_of_get hs hget'
  omega

/-- A pointer into the tree is one of the stack or the heap. -/
theorem MemorySimulator.HasLayout.isAPointer {m : MemorySimulator} (hm : m.HasLayout L)
    (hlo : Layout.start ≤ addr) (hhi : addr < L.stop) : m.isAPointer addr = true := by
  have hhalf := L.half_le_stop
  simp only [MemorySimulator.isAPointer, hm.mallocStart, hm.mallocEnd, hm.allocStart, hm.allocEnd,
    Bool.or_eq_true, decide_eq_true_eq]
  omega

/-- The constant space ends where the tree starts. -/
theorem Layout.not_constant (hlo : Layout.start ≤ addr) : ¬ (2 ^ 10 ≤ addr ∧ addr < 2 ^ 20) := by
  simp only [Layout.start] at hlo
  omega

theorem MemorySimulator.HasLayout.loadBytes_eq (hs : s.sim.HasLayout L) {offset : ℕ}
    (hoffset : Layout.start + offset = addr) (hhi : addr < L.stop)
    (globalMemory : ℕ → ℕ → Except Fault (List (Option UInt8))) (fuel size : ℕ) :
    s.sim.loadBytesFromMemory globalMemory fuel addr size =
      loadLoop s.sim.tree size fuel addr offset 0 := by
  have hstop := L.stop_lt
  have hlo : Layout.start ≤ addr := Nat.le.intro hoffset
  have hpointer := hs.isAPointer hlo hhi
  have hlocal := Layout.not_constant hlo
  have hsub : ptrSub addr s.sim.tree.start = offset := by
    rw [hs.start, ptrSub_of_le (by omega) (by omega)]
    omega
  simp only [MemorySimulator.loadBytesFromMemory, hpointer, hlocal, hsub, Bool.not_true,
    Bool.false_eq_true, if_false]

/-- The load ends; its slices fill the buffer, each is copied from one chunk, and the bytes are
those that loads of the addresses report. -/
def Session.LoadsExactly (L : Layout) (s : Session)
    (globalMemory : ℕ → ℕ → Except Fault (List (Option UInt8))) (addr size : ℕ) : Prop :=
  ∃ fuel slices, s.sim.loadBytesFromMemory globalMemory fuel addr size = .ok (some slices) ∧
    Tiles 0 size slices ∧ ∀ p ∈ slices, p.Copies L s addr

/-- **A load of several bytes copies them** if and only if it starts with a chunk or is at least as
long as one: in every reachable state, for every range of bytes that loads report.  A load that
starts in the middle of a chunk and is shorter than one does not return. -/
theorem load_bytes_exact_iff (L : Layout) {guard : Session → Op → Prop} {s : Session}
    (hrun : Reachable Session.step guard (Session.init L) s)
    (globalMemory : ℕ → ℕ → Except Fault (List (Option UInt8))) {addr size : ℕ} (hpos : 0 < size)
    (hread : s.Readable addr size) :
    s.LoadsExactly L globalMemory addr size ↔
      (addr - Layout.start) % L.chunkSize = 0 ∨ L.chunkSize ≤ size := by
  have hs := Session.hasLayout_of_reachable hrun
  obtain ⟨hlo, hhi⟩ := hread.mem hs hpos
  obtain ⟨offset, hoffset⟩ := Nat.exists_eq_add_of_le hlo
  have hsub : addr - Layout.start = offset := by omega
  have hload := fun fuel => hs.loadBytes_eq hoffset.symm (by omega) globalMemory fuel size
  rw [hsub]
  constructor
  · rintro ⟨fuel, slices, hreturn, -, -⟩
    by_contra honce
    obtain ⟨hmid, hlt⟩ := not_or.mp honce
    rw [hload] at hreturn
    exact loadLoop_twice hs hhi hread hoffset.symm (Nat.pos_of_ne_zero hmid) hpos
      (Nat.lt_of_not_le hlt) fuel slices hreturn
  · intro honce
    obtain ⟨fuel, slices, hreturn, htiles, hcopies⟩ := loadLoop_exact hs hhi hread size offset 0
      (by omega) (by omega) (Or.inr honce)
    exact ⟨fuel, slices, (hload fuel).trans hreturn, htiles, hcopies⟩

end Session

/-- The bytes of a block of zeroed heap are known. -/
theorem readable_eightChunks {addr : ℕ} (haddr : addr = 2 ^ 20 + 32 ∨ addr = 2 ^ 20 + 34) :
    ((Session.init eightChunks).perform (.mallocMemory 8 .zero)).2.Readable addr 4 := by
  intro j hj
  refine ⟨⟨none, .memset, 0⟩, some 0, ?_, rfl⟩
  have hj' : j = 0 ∨ j = 1 ∨ j = 2 ∨ j = 3 := by omega
  rcases haddr with rfl | rfl <;> rcases hj' with rfl | rfl | rfl | rfl <;> rfl

/-- Four bytes from the start of eight zeroed bytes of heap. -/
theorem load_bytes_exact_eightChunks :
    ((Session.init eightChunks).perform (.mallocMemory 8 .zero)).2.LoadsExactly eightChunks
      (fun _ _ => .error .assertion) (2 ^ 20 + 32) 4 := by
  have hrun : Reachable Session.step (fun _ _ => True) (Session.init eightChunks) _ := .init
  have hrun₁ := Session.reachable_perform hrun (.mallocMemory 8 .zero) trivial rfl
  exact (load_bytes_exact_iff eightChunks hrun₁ _ (by decide)
    (readable_eightChunks (Or.inl rfl))).mpr (Or.inl (by decide))

/-- A load of the middle four of eight zeroed bytes of heap does not end: its first slice is
empty. -/
theorem load_bytes_not_exact :
    ¬ ∀ (L : Layout) (s : Session), Reachable Session.step (fun _ _ => True) (Session.init L) s →
      ∀ globalMemory addr size, 0 < size → s.InOneBlock addr size → s.Readable addr size →
        s.LoadsExactly L globalMemory addr size := by
  intro hclaim
  have hrun : Reachable Session.step (fun _ _ => True) (Session.init eightChunks) _ := .init
  have hrun₁ := Session.reachable_perform hrun (.mallocMemory 8 .zero) trivial rfl
  have hs := Session.hasLayout_of_reachable hrun₁
  have hread := readable_eightChunks (Or.inr rfl)
  have hblock : ((Session.init eightChunks).perform (.mallocMemory 8 .zero)).2.InOneBlock
      (2 ^ 20 + 34) 4 := by
    refine ⟨⟨2 ^ 20 + 32, 8, 8, .malloc, .memset⟩, by decide, fun a ha ha' => ?_⟩
    simp only [Allocation.Contains]
    omega
  obtain ⟨fuel, slices, hreturn, -⟩ := hclaim eightChunks _ hrun₁ (fun _ _ => .error .assertion)
    (2 ^ 20 + 34) 4 (by decide) hblock hread
  have hload := @MemorySimulator.HasLayout.loadBytes_eq _ _ (2 ^ 20 + 34) hs 34 rfl (by decide)
    (fun _ _ => .error .assertion) fuel 4
  rw [hload] at hreturn
  exact loadLoop_twice hs (by decide) hread rfl (by decide) (by decide) (by decide) fuel slices
    hreturn

end Borealis
