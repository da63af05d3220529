import Borealis.Executor.LoadBytes

/-!
# The search for a byte

`SegmentTree::memchr` looks at one node of the tree per round: a node that is known as a whole is
compared once, and the rest of a chunk is searched by `std::memchr`.  The rounds together read what
loads of the addresses report one after the other (`memchrLoop_eq`), but nothing in them looks at
the end of the allocation, or at the bytes of a buffer that were never initialized.

The contents of such bytes are a parameter `junk`.
-/

namespace Borealis

open Lib

/-- A 64-bit number as `long long`. -/
def toSigned (n : ℕ) : ℤ :=
  if n < 2 ^ 63 then n else (n : ℤ) - 2 ^ 64

/-- The number of bytes of a round; `std::min` compares `long long`s, and the result is unsigned. -/
def scanSize (noLimit : Bool) (mutableLimit : ℤ) (dataSize : ℕ) : ℕ :=
  if noLimit then dataSize else (min mutableLimit (toSigned dataSize) % 2 ^ 64).toNat

/-- The loop of `memchr`. -/
def memchrLoop (tree : SegmentTree) (junk : ℕ → UInt8) (ch : UInt8) (noLimit : Bool) :
    (fuel addr : ℕ) → (mutableLimit : ℤ) → Except Fault (Option ℕ)
  | 0, _, _ => .error .diverges
  | fuel + 1, addr, mutableLimit =>
    if ¬ (noLimit ∨ mutableLimit > 0) then .ok none
    else
      match (tree.run loadTraverser {} addr).1 with
      | .error e => .error e
      | .ok t =>
        let sz := scanSize noLimit mutableLimit t.dataSize
        let next := memchrLoop tree junk ch noLimit fuel (ptrAdd addr sz)
          (toSigned ((mutableLimit - sz) % 2 ^ 64).toNat)
        match t.state, t.ptr with
        | .memset, _ => if ch = t.filledWith then .ok (some addr) else next
        | .uninit, _ => .error (.illegalLoad addr)
        | .unknown, some (some chunk, offset) =>
          match (List.range sz).find? fun j =>
              (chunk (offset + j)).getD (junk (addr + j)) = ch with
          | some j => .ok (some (addr + j))
          | none => next
        | .unknown, _ => .error .assertion

/-- Each round goes forward in the 64-bit addresses of the tree. -/
def SegmentTree.maxRounds : ℕ := 2 ^ 64

/-- `memchr`. -/
def SegmentTree.memchr (tree : SegmentTree) (junk : ℕ → UInt8) (addr : ℕ) (ch : UInt8)
    (limit : ℕ) : Except Fault (Option ℕ) :=
  memchrLoop tree junk ch (limit = 2 ^ 64 - 1) (maxRounds + 2) addr (toSigned limit)

/-! ## A scan byte by byte -/

/-- What a byte read at an address gives. -/
def Session.heldByte (s : Session) (junk : ℕ → UInt8) (a : ℕ) : Option UInt8 :=
  match s.get a with
  | .ok i => i.byte.map fun v => v.getD (junk a)
  | .error _ => none

/-- The bytes of the tree, one after the other, regardless of allocations. -/
def Session.linearScan (s : Session) (junk : ℕ → UInt8) (ch : UInt8) :
    (n addr : ℕ) → Except Fault (Option ℕ)
  | 0, _ => .ok none
  | n + 1, addr =>
    match s.get addr with
    | .error e => .error e
    | .ok i =>
      match i.byte with
      | none => if i.memState = .uninit then .error (.illegalLoad addr) else .error .assertion
      | some v =>
        if v.getD (junk addr) = ch then .ok (some addr) else s.linearScan junk ch n (addr + 1)

section LinearScan

variable {s : Session} {junk : ℕ → UInt8} {ch : UInt8} {n w addr : ℕ}

/-- The bytes of the range are read, and are not the one that is searched for. -/
def Session.Passes (s : Session) (junk : ℕ → UInt8) (ch : UInt8) (addr w : ℕ) : Prop :=
  ∀ j < w, ∃ v, s.heldByte junk (addr + j) = some v ∧ v ≠ ch

theorem Session.heldByte_eq_some {v : UInt8} (hheld : s.heldByte junk addr = some v) :
    ∃ i b, s.get addr = .ok i ∧ i.byte = some b ∧ b.getD (junk addr) = v := by
  unfold heldByte at hheld
  cases hget : s.get addr with
  | error e => simp [hget] at hheld
  | ok i =>
      rw [hget] at hheld
      obtain ⟨b, hb, hv⟩ := Option.map_eq_some_iff.mp hheld
      exact ⟨i, b, rfl, hb, hv⟩

theorem Session.linearScan_step {v : UInt8} (hheld : s.heldByte junk addr = some v) :
    s.linearScan junk ch (n + 1) addr =
      if v = ch then .ok (some addr) else s.linearScan junk ch n (addr + 1) := by
  obtain ⟨i, b, hget, hb, rfl⟩ := Session.heldByte_eq_some hheld
  simp only [linearScan, hget, hb]

theorem Session.Passes.tail (hpass : s.Passes junk ch addr (w + 1)) :
    s.Passes junk ch (addr + 1) w := by
  intro j hj
  have := hpass (j + 1) (by omega)
  rwa [show addr + (j + 1) = addr + 1 + j by omega] at this

theorem Session.Passes.mono {w' : ℕ} (hpass : s.Passes junk ch addr w) (hle : w' ≤ w) :
    s.Passes junk ch addr w' :=
  fun j hj => hpass j (hj.trans_le hle)

/-- A scan goes on behind the bytes that it passes. -/
theorem Session.linearScan_skip (hpass : s.Passes junk ch addr w) (hle : w ≤ n) :
    s.linearScan junk ch n addr = s.linearScan junk ch (n - w) (addr + w) := by
  induction w generalizing n addr with
  | zero => rfl
  | succ w ih =>
      obtain ⟨n, rfl⟩ : ∃ m, n = m + 1 := ⟨n - 1, by omega⟩
      obtain ⟨v, hheld, hne⟩ := hpass 0 (Nat.succ_pos w)
      rw [Nat.add_zero] at hheld
      rw [linearScan_step hheld, if_neg hne, ih hpass.tail (by omega), Nat.add_sub_add_right,
        Nat.add_right_comm, Nat.add_assoc]

/-- A scan ends with the first byte that it is looking for. -/
theorem Session.linearScan_found (hpass : s.Passes junk ch addr w) (hlt : w < n)
    (hheld : s.heldByte junk (addr + w) = some ch) :
    s.linearScan junk ch n addr = .ok (some (addr + w)) := by
  obtain ⟨m, hm⟩ : ∃ m, n - w = m + 1 := ⟨n - w - 1, by omega⟩
  rw [linearScan_skip hpass hlt.le, hm, linearScan_step hheld, if_pos rfl]

end LinearScan

/-! ## The rounds -/

section Rounds

variable {L : Layout} {s : Session}

/-- The number of bytes from an address on that one round sees. -/
def Session.extent (s : Session) (L : Layout) (addr : ℕ) : ℕ :=
  Borealis.extent L.chunkSize L.power Layout.start s.root addr

/-- The load of a round. -/
theorem Session.run_load (hs : s.sim.HasLayout L) (a : ℕ) :
    (s.sim.tree.run loadTraverser {} a).1 =
      (s.get a).map (IntervalState.load · (s.extent L a)) := by
  by_cases hin : Layout.start ≤ a ∧ a < L.stop
  · rw [Session.get_eq hs hin.1 hin.2, hs.run_eq]
    exact (descend_loadState hin s.root).1
  · rw [Session.get_outside hs hin, hs.run_eq, descend_outside hin]
    rfl

theorem Session.extent_bounds {a : ℕ} (hhi : a < L.stop) :
    0 < s.extent L a ∧ a + s.extent L a ≤ L.stop :=
  Borealis.extent_bounds hhi

theorem Session.get_shift (hs : s.sim.HasLayout L) {a j : ℕ} {i : IntervalState}
    (hget : s.get a = .ok i) (hj : j < s.extent L a) : s.get (a + j) = .ok (i.shift j) := by
  obtain ⟨hlo, hhi⟩ := Session.mem_of_get hs hget
  have hend := (Session.extent_bounds (s := s) hhi).2
  rw [Session.get_eq hs hlo hhi] at hget
  rw [Session.get_eq hs (by omega) (by omega)]
  exact peek_shift hlo hj hget

theorem IntervalState.byte_memset {i : IntervalState} (hstate : i.memState = .memset) (j : ℕ) :
    (i.shift j).byte = some (some i.filledWith) := by
  simp [byte, shift, hstate]

theorem IntervalState.byte_chunk {i : IntervalState} {chunk : Chunk} {offset : ℕ}
    (hstate : i.memState = .unknown) (hdata : i.data = some (some chunk, offset)) (j : ℕ) :
    (i.shift j).byte = some (chunk (offset + j)) := by
  simp [byte, shift, hstate, hdata]

/-- A chunk with a buffer answers up to its end. -/
theorem extent_le_of_unknown {c h lo a : ℕ} {t : NodePtr} {i : IntervalState} (hlo : lo ≤ a)
    (hpeek : peek c h lo t a = .ok i) (hstate : i.memState = .unknown) :
    Borealis.extent c h lo t a ≤ c := by
  induction h generalizing lo t with
  | zero =>
      simp only [Borealis.extent]
      omega
  | succ h ih =>
      cases t with
      | null => simp at hpeek
      | node n l r =>
          by_cases hn : n.state = .unknown
          · rcases Nat.lt_or_ge a (lo + span c h) with ha | ha
            · rw [peek_left hn ha] at hpeek
              rw [extent_left hn ha]
              exact ih hlo hpeek
            · rw [peek_right hn ha] at hpeek
              rw [extent_right hn ha]
              exact ih ha hpeek
          · rw [peek_known hn] at hpeek
            obtain rfl := Except.ok.inj hpeek
            exact absurd hstate hn

theorem Session.extent_le_chunk (hs : s.sim.HasLayout L) {a : ℕ} {i : IntervalState}
    (hget : s.get a = .ok i) (hstate : i.memState = .unknown) : s.extent L a ≤ L.chunkSize := by
  obtain ⟨hlo, hhi⟩ := Session.mem_of_get hs hget
  rw [Session.get_eq hs hlo hhi] at hget
  exact extent_le_of_unknown hlo hget hstate

/-- Only the root stands for half of the 64-bit addresses, and then it answers every load. -/
theorem Session.extent_root {a : ℕ} (hlo : Layout.start ≤ a) (hhi : a < L.stop)
    (hbig : 2 ^ 63 ≤ s.extent L a) {b : ℕ} (hb : b < L.stop) : b + s.extent L b = L.stop := by
  have hfits := L.fits
  have hc := L.chunkSize_lt
  simp only [Session.extent, Layout.stop, Layout.size] at hbig hhi hb ⊢
  cases hpower : L.power with
  | zero =>
      rw [hpower] at hbig
      simp only [Borealis.extent] at hbig
      omega
  | succ h =>
      rw [hpower] at hbig hfits hhi hb
      have hhalf := span_succ L.chunkSize h
      cases hroot : s.root with
      | null =>
          simp only [Borealis.extent]
          omega
      | node n l r =>
          rw [hroot] at hbig
          by_cases hn : n.state = .unknown
          · rcases Nat.lt_or_ge a (Layout.start + span L.chunkSize h) with ha | ha
            · rw [extent_left hn ha] at hbig
              have := @Borealis.extent_bounds L.chunkSize h Layout.start a l ha
              omega
            · rw [extent_right hn ha] at hbig
              have := @Borealis.extent_bounds L.chunkSize h (Layout.start + span L.chunkSize h) a r
                (by omega)
              omega
          · rw [extent_known hn]
            omega

/-- The rest of the limit after a round that saw `w` of at most `n` bytes. -/
theorem toSigned_sub {n w : ℕ} (hn : n < 2 ^ 63) (hw : w ≤ n) :
    toSigned (((n : ℤ) - w) % 2 ^ 64).toNat = ((n - w : ℕ) : ℤ) := by
  have hcast : ((n : ℤ) - w) % 2 ^ 64 = ((n - w : ℕ) : ℤ) := by omega
  rw [hcast, Int.toNat_natCast, toSigned, if_pos (by omega)]

theorem scanSize_limit {n w : ℕ} (hn : n < 2 ^ 63) (hw : w < 2 ^ 63) :
    scanSize false n w = min n w := by
  simp only [scanSize, toSigned, hw, if_true, Bool.false_eq_true, if_false]
  omega

theorem scanSize_big {n w : ℕ} (hn : n < 2 ^ 63) (hw : 2 ^ 63 ≤ w) (hw' : w < 2 ^ 64) :
    scanSize false n w = w := by
  simp only [scanSize, toSigned, Nat.not_lt.mpr hw, if_false, Bool.false_eq_true]
  omega

variable {junk : ℕ → UInt8} {ch : UInt8} {noLimit : Bool} {fuel n addr sz : ℕ} {ml : ℤ}
  {i : IntervalState}

theorem Session.heldByte_shift (hs : s.sim.HasLayout L) (hget : s.get addr = .ok i) {j : ℕ}
    (hj : j < s.extent L addr) {b : Option UInt8} (hb : (i.shift j).byte = some b) :
    s.heldByte junk (addr + j) = some (b.getD (junk (addr + j))) := by
  simp only [heldByte, Session.get_shift hs hget hj, hb, Option.map_some]

/-- A round of the loop that reads bytes: it finds the first one that is searched for, or it passes
all of them and the loop goes on. -/
theorem memchrLoop_round (junk : ℕ → UInt8) (ch : UInt8) (fuel : ℕ) (hs : s.sim.HasLayout L)
    (hmore : noLimit ∨ ml > 0)
    (hget : s.get addr = .ok i) {b : Option UInt8} (hb : i.byte = some b)
    (hsz : scanSize noLimit ml (s.extent L addr) = sz) (hpos : 0 < sz)
    (hle : sz ≤ s.extent L addr) :
    (∃ w < sz, (w = 0 ∨ i.memState = .unknown) ∧ s.Passes junk ch addr w ∧
        s.heldByte junk (addr + w) = some ch ∧
        memchrLoop s.sim.tree junk ch noLimit (fuel + 1) addr ml = .ok (some (addr + w))) ∨
      s.Passes junk ch addr sz ∧
        memchrLoop s.sim.tree junk ch noLimit (fuel + 1) addr ml =
          memchrLoop s.sim.tree junk ch noLimit fuel (ptrAdd addr sz)
            (toSigned ((ml - sz) % 2 ^ 64).toNat) := by
  have hload := Session.run_load hs addr
  rw [hget] at hload
  cases hstate : i.memState with
  | uninit => exact absurd hstate (IntervalState.not_uninit hb)
  | memset =>
      have hheld : ∀ j < sz, s.heldByte junk (addr + j) = some i.filledWith := fun j hj =>
        Session.heldByte_shift hs hget (hj.trans_le hle) (IntervalState.byte_memset hstate j)
      by_cases hfill : ch = i.filledWith
      · refine Or.inl ⟨0, hpos, Or.inl rfl, fun j hj => absurd hj (Nat.not_lt_zero j), ?_, ?_⟩
        · rw [hheld 0 hpos, hfill]
        · simp only [memchrLoop, hmore, not_true, if_false, hload, Except.map, IntervalState.load,
            hstate, hfill, if_true, Nat.add_zero]
      · refine Or.inr ⟨fun j hj => ⟨_, hheld j hj, Ne.symm hfill⟩, ?_⟩
        simp only [memchrLoop, hmore, not_true, if_false, hload, Except.map, IntervalState.load,
          hstate, hfill, hsz]
  | unknown =>
      obtain ⟨chunk, offset, hdata⟩ : ∃ chunk offset, i.data = some (some chunk, offset) := by
        match hdata : i.data with
        | some (some chunk, offset) => exact ⟨chunk, offset, rfl⟩
        | some (none, offset) => simp [IntervalState.byte, hstate, hdata] at hb
        | none => simp [IntervalState.byte, hstate, hdata] at hb
      have hheld : ∀ j < sz, s.heldByte junk (addr + j) =
          some ((chunk (offset + j)).getD (junk (addr + j))) := fun j hj =>
        Session.heldByte_shift hs hget (hj.trans_le hle) (IntervalState.byte_chunk hstate hdata j)
      cases hfind : (List.range sz).find? fun j =>
          (chunk (offset + j)).getD (junk (addr + j)) = ch with
      | some w =>
          obtain ⟨hch, hmem, hbefore⟩ := List.find?_range_eq_some.mp hfind
          have hw := List.mem_range.mp hmem
          refine Or.inl ⟨w, hw, Or.inr rfl, fun j hj => ⟨_, hheld j (hj.trans hw), ?_⟩, ?_, ?_⟩
          · simpa using hbefore j hj
          · rw [hheld w hw]
            simpa using hch
          · simp only [memchrLoop, hmore, not_true, if_false, hload, Except.map,
              IntervalState.load, hstate, hdata, hsz, hfind]
      | none =>
          have hnone := List.find?_range_eq_none.mp hfind
          refine Or.inr ⟨fun j hj => ⟨_, hheld j hj, by simpa using hnone j hj⟩, ?_⟩
          simp only [memchrLoop, hmore, not_true, if_false, hload, Except.map, IntervalState.load,
            hstate, hdata, hsz, hfind]

/-- A round of the loop that cannot read its first byte ends it. -/
theorem memchrLoop_blocked (hs : s.sim.HasLayout L) (hmore : noLimit ∨ ml > 0)
    (hblocked : ∀ i, s.get addr = .ok i → i.byte = none) :
    memchrLoop s.sim.tree junk ch noLimit (fuel + 1) addr ml =
      s.linearScan junk ch (n + 1) addr := by
  have hload := Session.run_load hs addr
  cases hget : s.get addr with
  | error e =>
      rw [hget] at hload
      simp only [memchrLoop, hmore, not_true, if_false, hload, Except.map, Session.linearScan, hget]
  | ok i =>
      have hnone := hblocked i hget
      rw [hget] at hload
      cases hstate : i.memState with
      | memset => simp [IntervalState.byte, hstate] at hnone
      | uninit =>
          simp only [memchrLoop, hmore, not_true, if_false, hload, Except.map, Session.linearScan,
            hget, IntervalState.load, hstate, hnone, if_true]
      | unknown =>
          rcases hdata : i.data with _ | ⟨_ | chunk, offset⟩
          · simp [memchrLoop, hmore, hload, Except.map, Session.linearScan,
              hget, IntervalState.load, hstate, hdata, hnone]
          · simp [memchrLoop, hmore, hload, Except.map, Session.linearScan,
              hget, IntervalState.load, hstate, hdata, hnone]
          · simp [IntervalState.byte, hstate, hdata] at hnone

/-- The limit of a search: none, if no scan in the tree is as long, or what is left of it. -/
def Limits (L : Layout) (addr : ℕ) (noLimit : Bool) (ml : ℤ) (n : ℕ) : Prop :=
  (noLimit = true ∧ L.stop - addr < n) ∨ (noLimit = false ∧ ml = n ∧ n < 2 ^ 63)

/-- A limited search passes its first node, and that stands for so many bytes that the rest of the
limit wraps. -/
def Session.Overflows (L : Layout) (s : Session) (junk : ℕ → UInt8) (ch : UInt8) (n addr : ℕ) :
    Prop :=
  0 < n ∧ (∃ v, s.heldByte junk addr = some v ∧ v ≠ ch) ∧ 2 ^ 63 + n < s.extent L addr

theorem Session.mem_of_heldByte (hs : s.sim.HasLayout L) {v : UInt8}
    (hheld : s.heldByte junk addr = some v) : Layout.start ≤ addr ∧ addr < L.stop := by
  obtain ⟨i, b, hget, -, -⟩ := Session.heldByte_eq_some hheld
  exact Session.mem_of_get hs hget

/-- A search that does not wrap is a scan byte by byte. -/
theorem memchrLoop_eq (hs : s.sim.HasLayout L)
    (hlimits : Limits L addr noLimit ml n) (hfuel : L.stop - addr + 2 ≤ fuel)
    (hno : noLimit = false → ¬ s.Overflows L junk ch n addr) :
    memchrLoop s.sim.tree junk ch noLimit fuel addr ml = s.linearScan junk ch n addr := by
  have hstop := L.stop_lt
  induction fuel generalizing n addr ml with
  | zero => omega
  | succ fuel ih =>
      by_cases hmore : noLimit ∨ ml > 0
      swap
      · -- the limit is used up
        obtain ⟨hno', hml⟩ := not_or.mp hmore
        obtain ⟨-, rfl, -⟩ := hlimits.resolve_left fun h => hno' h.1
        obtain rfl : n = 0 := by omega
        simp only [memchrLoop, hmore, not_false_iff, if_true, Session.linearScan]
      obtain ⟨m, rfl⟩ : ∃ m, n = m + 1 := by
        refine ⟨n - 1, ?_⟩
        rcases hlimits with ⟨-, hlt⟩ | ⟨rfl, rfl, -⟩
        · omega
        · simp only [Bool.false_eq_true, false_or] at hmore
          omega
      by_cases hread : ∃ i b, s.get addr = .ok i ∧ i.byte = some b
      swap
      · refine memchrLoop_blocked hs hmore fun i hget => ?_
        cases hb : i.byte with
        | none => rfl
        | some b => exact absurd ⟨i, b, hget, hb⟩ hread
      obtain ⟨i, b, hget, hb⟩ := hread
      obtain ⟨hlo, hin⟩ := Session.mem_of_get hs hget
      obtain ⟨hpos, hend⟩ := Session.extent_bounds (s := s) hin
      have hadd : ptrAdd addr (s.extent L addr) = addr + s.extent L addr := ptrAdd_of_lt (by omega)
      rcases hlimits with ⟨rfl, hlt⟩ | ⟨rfl, rfl, hlt⟩
      · -- no limit: the round sees the whole node
        have hsz : scanSize true ml (s.extent L addr) = s.extent L addr := rfl
        rcases memchrLoop_round junk ch fuel hs hmore hget hb hsz hpos le_rfl with
          ⟨w, hw, -, hpass, hheld, hloop⟩ | ⟨hpass, hloop⟩
        · rw [hloop, Session.linearScan_found hpass (by omega) hheld]
        · rw [hloop, Session.linearScan_skip hpass (by omega), hadd]
          exact ih (Or.inl ⟨rfl, by omega⟩) (by omega) (by simp)
      · rcases Nat.lt_or_ge (s.extent L addr) (2 ^ 63) with hsmall | hbig
        · -- the round sees the node, or as much of it as the limit allows
          have hsz := scanSize_limit hlt hsmall
          rcases memchrLoop_round junk ch fuel hs hmore hget hb hsz (by omega) (by omega) with
            ⟨w, hw, -, hpass, hheld, hloop⟩ | ⟨hpass, hloop⟩
          · rw [hloop, Session.linearScan_found hpass (by omega) hheld]
          · rw [hloop, Session.linearScan_skip hpass (by omega), toSigned_sub hlt (by omega),
              ptrAdd_of_lt (by omega)]
            refine ih (Or.inr ⟨rfl, rfl, by omega⟩) (by omega) fun _ hover => ?_
            obtain ⟨hrest, ⟨v, hheld, -⟩, hwide⟩ := hover
            obtain ⟨hlo', hin'⟩ := Session.mem_of_heldByte hs hheld
            have hbig : 2 ^ 63 ≤ s.extent L (addr + min (m + 1) (s.extent L addr)) := by omega
            have hroot := Session.extent_root hlo' hin' hbig hin
            omega
        · -- the limit ends in the node, which is the root
          have hsz := scanSize_big hlt hbig (by omega)
          rcases memchrLoop_round junk ch fuel hs hmore hget hb hsz (by omega) le_rfl with
            ⟨w, hw, hzero, hpass, hheld, hloop⟩ | ⟨hpass, hloop⟩
          · rcases hzero with rfl | hstate
            · rw [hloop, Session.linearScan_found hpass (Nat.succ_pos m) hheld]
            · have hchunk := Session.extent_le_chunk hs hget hstate
              have := L.chunkSize_lt
              omega
          · have hfirst := hpass 0 hpos
            rw [Nat.add_zero] at hfirst
            have hfit : s.extent L addr ≤ 2 ^ 63 + (m + 1) := by
              by_contra hwide
              exact hno rfl ⟨Nat.succ_pos m, hfirst, by omega⟩
            obtain ⟨rest, rfl⟩ : ∃ rest, fuel = rest + 1 := ⟨fuel - 1, by omega⟩
            have hused : ¬ ((false : Bool) = true ∨
                toSigned ((((m + 1 : ℕ) : ℤ) - s.extent L addr) % 2 ^ 64).toNat > 0) := by
              simp only [toSigned, Bool.false_eq_true, false_or]
              split <;> omega
            rw [hloop, Session.linearScan_skip (hpass.mono (by omega)) le_rfl, Nat.sub_self]
            simp only [memchrLoop, hused, not_false_iff, if_true, Session.linearScan]

/-- A search whose limit wraps reads behind the tree. -/
theorem memchrLoop_overflow (hs : s.sim.HasLayout L) (hn : n < 2 ^ 63)
    (hover : s.Overflows L junk ch n addr) :
    memchrLoop s.sim.tree junk ch false (fuel + 2) addr n = .error .assertion := by
  have hstop := L.stop_lt
  obtain ⟨hpos, ⟨v, hheld, hne⟩, hwide⟩ := hover
  obtain ⟨i, b, hget, hb, rfl⟩ := Session.heldByte_eq_some hheld
  obtain ⟨hlo, hin⟩ := Session.mem_of_get hs hget
  have hend := (Session.extent_bounds (s := s) hin).2
  have hbig : 2 ^ 63 ≤ s.extent L addr := by omega
  have hroot := Session.extent_root hlo hin hbig hin
  have hsz := scanSize_big hn hbig (by omega)
  have hmore : (false : Bool) = true ∨ (n : ℤ) > 0 := Or.inr (by omega)
  rcases memchrLoop_round junk ch (fuel + 1) hs hmore hget hb hsz (by omega) le_rfl with
    ⟨w, hw, hzero, hpass, hheld', hloop⟩ | ⟨hpass, hloop⟩
  · rcases hzero with rfl | hstate
    · rw [Nat.add_zero, hheld] at hheld'
      exact absurd (Option.some.inj hheld') hne
    · have hchunk := Session.extent_le_chunk hs hget hstate
      have := L.chunkSize_lt
      omega
  · have hmore' : (false : Bool) = true ∨
        toSigned (((n : ℤ) - s.extent L addr) % 2 ^ 64).toNat > 0 := by
      refine Or.inr ?_
      simp only [toSigned]
      split <;> omega
    have hload := Session.run_load hs L.stop
    rw [Session.get_outside hs (by omega)] at hload
    rw [hloop, ptrAdd_of_lt (by omega), hroot]
    simp only [memchrLoop, hmore', not_true, if_false, hload, Except.map]

end Rounds

/-! ## The search in an allocation -/

/-- What a search should end with. -/
inductive Scan where
  | found (addr : ℕ)
  | absent
  | illegal
deriving DecidableEq

/-- The byte at an address, if it is initialized. -/
def Session.value (s : Session) (a : ℕ) : Option UInt8 :=
  match s.get a with
  | .ok i => i.byte.join
  | .error _ => none

/-- The linear scan of `n` bytes from `addr` on: it stops at the first byte that is searched for,
and is illegal at the end of the allocation and at a byte that is not initialized. -/
def Session.scan (s : Session) (A : Allocation) (ch : UInt8) : (n addr : ℕ) → Scan
  | 0, _ => .absent
  | n + 1, addr =>
    if ¬ A.Contains addr then .illegal
    else
      match s.value addr with
      | none => .illegal
      | some v => if v = ch then .found addr else s.scan A ch n (addr + 1)

/-- The result of `memchr` is the one of the scan. -/
def Scan.Describes : Scan → Except Fault (Option ℕ) → Prop
  | .found a, result => result = .ok (some a)
  | .absent, result => result = .ok none
  | .illegal, result => ∃ a, result = .error (.illegalLoad a)

/-- A load that throws, or finds memory that was never initialized. -/
def Session.Refused (s : Session) (a : ℕ) : Prop :=
  (∃ x, s.get a = .error (.illegalLoad x)) ∨ ∃ i, s.get a = .ok i ∧ i.memState = .uninit

/-- The `n` bytes from `addr` on lead up to a load that is refused, past bytes that are not the one
that is searched for. -/
def Session.Refuses (s : Session) (junk : ℕ → UInt8) (ch : UInt8) (n addr : ℕ) : Prop :=
  ∃ k < n, s.Passes junk ch addr k ∧ s.Refused (addr + k)

/-- Where the scan comes to the end of the allocation, or to a byte that is not initialized, what
is read from there on leads up to a load that is refused. -/
def Session.StopsIn (s : Session) (A : Allocation) (junk : ℕ → UInt8) (ch : UInt8) (n addr : ℕ) :
    Prop :=
  ∀ k < n, (∀ j < k, A.Contains (addr + j) ∧ ∃ v, s.value (addr + j) = some v ∧ v ≠ ch) →
    ¬ (A.Contains (addr + k) ∧ (s.value (addr + k)).isSome) →
    s.Refuses junk ch (n - k) (addr + k)

section Scan

variable {L : Layout} {s : Session} {A : Allocation} {junk : ℕ → UInt8} {ch : UInt8} {n addr : ℕ}

theorem Session.heldByte_of_value {v : UInt8} (hvalue : s.value addr = some v) :
    s.heldByte junk addr = some v := by
  unfold value at hvalue
  unfold heldByte
  cases hget : s.get addr with
  | error e => simp [hget] at hvalue
  | ok i =>
      rw [hget] at hvalue
      have hbyte : i.byte = some (some v) := Option.join_eq_some_iff.mp hvalue
      simp [hbyte]

theorem Session.not_refused {v : UInt8} (hheld : s.heldByte junk addr = some v) :
    ¬ s.Refused addr := by
  obtain ⟨i, b, hget, hb, -⟩ := Session.heldByte_eq_some hheld
  rintro (⟨x, herror⟩ | ⟨i', hget', hstate⟩)
  · simp [hget] at herror
  · obtain rfl := Except.ok.inj (hget.symm.trans hget')
    exact IntervalState.not_uninit hb hstate

/-- A byte that is passed leads on to the next one. -/
theorem Session.refuses_succ {v : UInt8} (hheld : s.heldByte junk addr = some v) (hne : v ≠ ch) :
    s.Refuses junk ch (n + 1) addr ↔ s.Refuses junk ch n (addr + 1) := by
  constructor
  · rintro ⟨k, hk, hpass, hrefused⟩
    rcases Nat.eq_zero_or_pos k with rfl | hpos
    · exact absurd hrefused (Session.not_refused hheld)
    · obtain ⟨k, rfl⟩ : ∃ m, k = m + 1 := ⟨k - 1, by omega⟩
      refine ⟨k, by omega, hpass.tail, ?_⟩
      rwa [Nat.add_right_comm]
  · rintro ⟨k, hk, hpass, hrefused⟩
    refine ⟨k + 1, by omega, fun j hj => ?_, ?_⟩
    · rcases Nat.eq_zero_or_pos j with rfl | hpos
      · exact ⟨v, hheld, hne⟩
      · have hnext := hpass (j - 1) (by omega)
        rwa [show addr + 1 + (j - 1) = addr + j by omega] at hnext
    · rwa [Nat.add_right_comm] at hrefused

/-- A byte that is not passed has to be refused itself. -/
theorem Session.refuses_here (hstop : ¬ ∃ v, s.heldByte junk addr = some v ∧ v ≠ ch) :
    s.Refuses junk ch (n + 1) addr ↔ s.Refused addr := by
  constructor
  · rintro ⟨k, hk, hpass, hrefused⟩
    rcases Nat.eq_zero_or_pos k with rfl | hpos
    · exact hrefused
    · exact absurd (hpass 0 hpos) hstop
  · intro hrefused
    exact ⟨0, Nat.succ_pos n, fun j hj => absurd hj (Nat.not_lt_zero j), hrefused⟩

/-- A scan of the tree is illegal exactly if it leads up to a load that is refused. -/
theorem Session.linearScan_illegal_iff :
    (∃ x, s.linearScan junk ch n addr = .error (.illegalLoad x)) ↔ s.Refuses junk ch n addr := by
  induction n generalizing addr with
  | zero => simp [linearScan, Refuses]
  | succ n ih =>
      cases hheld : s.heldByte junk addr with
      | some v =>
          rw [linearScan_step hheld]
          by_cases hv : v = ch
          · rw [if_pos hv, Session.refuses_here (by simp [hheld, hv])]
            simpa using Session.not_refused hheld
          · rw [if_neg hv, ih, Session.refuses_succ hheld hv]
      | none =>
          rw [Session.refuses_here (by simp [hheld])]
          simp only [linearScan, Refused]
          cases hget : s.get addr with
          | error e => simp
          | ok i =>
              have hb : i.byte = none := by simpa [heldByte, hget] using hheld
              simp only [hb]
              split <;> simp_all

/-- A byte of the allocation that is passed leads on to the next one. -/
theorem Session.stopsIn_succ (hin : A.Contains addr) {v : UInt8} (hvalue : s.value addr = some v)
    (hne : v ≠ ch) : s.StopsIn A junk ch (n + 1) addr ↔ s.StopsIn A junk ch n (addr + 1) := by
  constructor
  · intro hstops k hk hpass hstop
    have hrest := hstops (k + 1) (by omega) (fun j hj => ?_) (by rwa [Nat.add_right_comm] at hstop)
    · rwa [Nat.add_sub_add_right, ← Nat.add_assoc, Nat.add_right_comm] at hrest
    · rcases Nat.eq_zero_or_pos j with rfl | hpos
      · exact ⟨hin, v, hvalue, hne⟩
      · have hnext := hpass (j - 1) (by omega)
        rwa [show addr + 1 + (j - 1) = addr + j by omega] at hnext
  · intro hstops k hk hpass hstop
    rcases Nat.eq_zero_or_pos k with rfl | hpos
    · exact absurd ⟨hin, by simp [hvalue]⟩ hstop
    · obtain ⟨k, rfl⟩ : ∃ m, k = m + 1 := ⟨k - 1, by omega⟩
      have heq : addr + (k + 1) = addr + 1 + k := by omega
      rw [heq] at hstop ⊢
      rw [Nat.add_sub_add_right]
      refine hstops k (by omega) (fun j hj => ?_) hstop
      have hnext := hpass (j + 1) (by omega)
      rwa [show addr + (j + 1) = addr + 1 + j by omega] at hnext

/-- A scan of the tree ends as the scan of the allocation should, exactly if it stops in it. -/
theorem Session.describes_iff :
    (s.scan A ch n addr).Describes (s.linearScan junk ch n addr) ↔ s.StopsIn A junk ch n addr := by
  induction n generalizing addr with
  | zero => simp [scan, linearScan, Scan.Describes, StopsIn]
  | succ n ih =>
      by_cases hgood : A.Contains addr ∧ (s.value addr).isSome
      · obtain ⟨hin, hsome⟩ := hgood
        obtain ⟨v, hvalue⟩ := Option.isSome_iff_exists.mp hsome
        have hheld : s.heldByte junk addr = some v := Session.heldByte_of_value hvalue
        simp only [scan, hin, not_true, if_false, hvalue, linearScan_step hheld]
        by_cases hv : v = ch
        · rw [if_pos hv, if_pos hv]
          refine iff_of_true rfl fun k _ hpass hstop => ?_
          rcases Nat.eq_zero_or_pos k with rfl | hpos
          · exact absurd ⟨hin, by simp [hvalue]⟩ hstop
          · obtain ⟨-, v', hvalue', hne⟩ := hpass 0 hpos
            obtain rfl := Option.some.inj (hvalue.symm.trans hvalue')
            exact absurd hv hne
        · rw [if_neg hv, if_neg hv, ih, Session.stopsIn_succ hin hvalue hv]
      · have hscan : s.scan A ch (n + 1) addr = .illegal := by
          by_cases hin : A.Contains addr
          · have hnone : s.value addr = none := by
              simpa [hin] using hgood
            simp only [scan, hin, not_true, if_false, hnone]
          · simp only [scan, hin, not_false_iff, if_true]
        rw [hscan]
        refine Session.linearScan_illegal_iff.trans
          ⟨fun hrefuses k _ hpass _ => ?_, fun hstops => ?_⟩
        · rcases Nat.eq_zero_or_pos k with rfl | hpos
          · exact hrefuses
          · obtain ⟨hin, v, hvalue, -⟩ := hpass 0 hpos
            exact absurd ⟨hin, by simp [show s.value addr = some v from hvalue]⟩ hgood
        · exact hstops 0 (Nat.succ_pos n) (fun j hj => absurd hj (Nat.not_lt_zero j)) hgood

/-- A scan that ends without a result stays in the allocation. -/
theorem Session.contains_of_scan_absent (habsent : s.scan A ch n addr = .absent) {k : ℕ}
    (hk : k < n) : A.Contains (addr + k) := by
  induction n generalizing addr k with
  | zero => omega
  | succ n ih =>
      unfold scan at habsent
      split at habsent
      · cases habsent
      · next hin =>
          split at habsent
          · cases habsent
          · split at habsent
            · cases habsent
            · rcases Nat.eq_zero_or_pos k with rfl | hpos
              · exact not_not.mp hin
              · have hnext := ih habsent (k := k - 1) (by omega)
                rwa [show addr + 1 + (k - 1) = addr + k by omega] at hnext

/-- The search ends as the scan of the allocation. -/
def Session.SearchesExactly (s : Session) (A : Allocation) (junk : ℕ → UInt8) (ch : UInt8)
    (limit addr : ℕ) : Prop :=
  (s.scan A ch limit addr).Describes (s.sim.tree.memchr junk addr ch limit)

/-- **A search is a linear scan of the allocation**, in every reachable state, if and only if the
limit is a signed number or no limit, it does not wrap behind the first node, and where the scan
comes to the end of the allocation or to a byte of a buffer that was never initialized, what is
read from there on leads up to a load that is refused. -/
theorem memchr_exact_iff (L : Layout) {guard : Session → Op → Prop} {s : Session}
    (hrun : Reachable Session.step guard (Session.init L) s) {A : Allocation} (hA : A ∈ s.live)
    {addr : ℕ} (hin : A.Contains addr) (junk : ℕ → UInt8) (ch : UInt8) {limit : ℕ}
    (hlimit : limit < 2 ^ 64) :
    s.SearchesExactly A junk ch limit addr ↔
      (limit < 2 ^ 63 ∨ limit = 2 ^ 64 - 1) ∧
        ¬ (limit ≠ 2 ^ 64 - 1 ∧ s.Overflows L junk ch limit addr) ∧
        s.StopsIn A junk ch limit addr := by
  have hs := Session.hasLayout_of_reachable hrun
  have hamount := Session.amount_lt_of_reachable hrun A hA
  have hstop := L.stop_lt
  unfold Session.SearchesExactly SegmentTree.memchr
  have hfuel : L.stop - addr + 2 ≤ SegmentTree.maxRounds + 2 := by
    simp only [SegmentTree.maxRounds]
    omega
  by_cases hmax : limit = 2 ^ 64 - 1
  · have hloop : memchrLoop s.sim.tree junk ch true (SegmentTree.maxRounds + 2) addr
        (toSigned limit) = s.linearScan junk ch limit addr := by
      by_cases hlo : Layout.start ≤ addr
      · refine memchrLoop_eq hs (Or.inl ⟨rfl, ?_⟩) hfuel fun h => nomatch h
        simp only [Layout.start] at hlo
        omega
      · obtain ⟨m, rfl⟩ : ∃ m, limit = m + 1 := ⟨limit - 1, by omega⟩
        exact memchrLoop_blocked hs (Or.inl rfl)
          fun i hget => absurd (Session.mem_of_get hs hget).1 hlo
    rw [decide_eq_true hmax, hloop, Session.describes_iff]
    simp only [hmax, or_true, ne_eq, not_true, false_and, not_false_iff, true_and]
  rw [decide_eq_false hmax]
  by_cases hbig : limit < 2 ^ 63
  · have hsigned : toSigned limit = limit := by simp only [toSigned, hbig, if_true]
    rw [hsigned]
    by_cases hover : s.Overflows L junk ch limit addr
    · rw [memchrLoop_overflow hs hbig hover]
      refine iff_of_false (fun hdescribes => ?_) fun hcond => hcond.2.1 ⟨hmax, hover⟩
      cases hscan : s.scan A ch limit addr <;> simp [hscan, Scan.Describes] at hdescribes
    · rw [memchrLoop_eq hs (Or.inr ⟨rfl, rfl, hbig⟩) hfuel fun _ => hover, Session.describes_iff]
      simp only [hbig, true_or, hover, and_false, not_false_iff, true_and]
  · -- the limit is negative as a `long long`, and the search ends at once
    have hnegative : ¬ ((false : Bool) = true ∨ toSigned limit > 0) := by
      simp only [toSigned, hbig, if_false, Bool.false_eq_true, false_or]
      omega
    have hloop : memchrLoop s.sim.tree junk ch false (SegmentTree.maxRounds + 2) addr
        (toSigned limit) = .ok none := by
      simp only [memchrLoop, hnegative, not_false_iff, if_true]
    rw [hloop]
    refine iff_of_false (fun hdescribes => ?_) fun hcond => hcond.1.elim hbig hmax
    cases hscan : s.scan A ch limit addr with
    | found a => simp [hscan, Scan.Describes] at hdescribes
    | illegal => simp [hscan, Scan.Describes] at hdescribes
    | absent =>
        have hlast := Session.contains_of_scan_absent hscan (k := 2 ^ 63 - 1) (by omega)
        simp only [Allocation.Contains] at hin hlast
        omega

end Scan

/-- Four zeroed bytes of heap do not contain a one. -/
theorem memchr_exact_eightChunks :
    ((Session.init eightChunks).perform (.mallocMemory 8 .zero)).2.SearchesExactly
      ⟨2 ^ 20 + 32, 8, 8, .malloc, .memset⟩ (fun _ => 0) 1 4 (2 ^ 20 + 32) := by
  have hrun : Reachable Session.step (fun _ _ => True) (Session.init eightChunks) _ := .init
  have hrun₁ := Session.reachable_perform hrun (.mallocMemory 8 .zero) trivial rfl
  refine (memchr_exact_iff eightChunks hrun₁ (by decide) (by decide) _ _ (by decide)).mpr
    ⟨Or.inl (by decide), fun hover => ?_, fun k hk _ hstop => absurd ?_ hstop⟩
  · have hwide := hover.2.2.2
    revert hwide
    decide
  · have hk' : k = 0 ∨ k = 1 ∨ k = 2 ∨ k = 3 := by omega
    rcases hk' with rfl | rfl | rfl | rfl <;> exact ⟨by decide, rfl⟩

/-- A search in the last bytes of an allocation of five bytes goes on in the rest of its chunk. -/
theorem memchr_not_exact :
    ¬ ∀ (L : Layout) (s : Session), Reachable Session.step (fun _ _ => True) (Session.init L) s →
      ∀ A ∈ s.live, ∀ addr, A.Contains addr → ∀ junk ch limit, limit < 2 ^ 64 →
        s.SearchesExactly A junk ch limit addr := by
  intro hclaim
  have hrun : Reachable Session.step (fun _ _ => True) (Session.init eightChunks) _ := .init
  have hrun₁ := Session.reachable_perform hrun (.mallocMemory 5 .zero) trivial rfl
  have hexact := hclaim eightChunks _ hrun₁ ⟨2 ^ 20 + 32, 8, 5, .malloc, .memset⟩ (by decide)
    (2 ^ 20 + 32) (by decide) (fun _ => 0) 1 8 (by decide)
  have hscan : ((Session.init eightChunks).perform (.mallocMemory 5 .zero)).2.scan
      ⟨2 ^ 20 + 32, 8, 5, .malloc, .memset⟩ 1 8 (2 ^ 20 + 32) = .illegal := by rfl
  have hresult : ((Session.init eightChunks).perform (.mallocMemory 5 .zero)).2.sim.tree.memchr
      (fun _ => 0) (2 ^ 20 + 32) 1 8 = .ok none := by
    have hno : ¬ Session.Overflows eightChunks
        ((Session.init eightChunks).perform (.mallocMemory 5 .zero)).2 (fun _ => 0) 1 8
        (2 ^ 20 + 32) := by
      intro hover
      have hwide := hover.2.2
      revert hwide
      decide
    have hloop := memchrLoop_eq (Session.hasLayout_of_reachable hrun₁)
      (Or.inr ⟨rfl, rfl, by decide⟩) (show _ ≤ SegmentTree.maxRounds + 2 by decide) fun _ => hno
    exact hloop.trans rfl
  rw [Session.SearchesExactly, hscan, hresult] at hexact
  obtain ⟨a, ha⟩ := hexact
  cases ha

end Borealis
