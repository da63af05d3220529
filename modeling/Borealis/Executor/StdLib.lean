import Borealis.Executor.HeapFunctions
import Mathlib.Data.Nat.Size
import Mathlib.Tactic.IntervalCases

/-!
# The functions of the C library

`ExecutionEngine::callStdLibFunction` and the functions on ranges of bytes in
`Executor/FunctionCalls.cpp`.

A call of C is defined only where its arguments lie in live blocks and what it reads is initialized.
There the searches are scans of the block (`Session.scan`), and what is written is compared byte by
byte (`Session.value`).

## Strategy

The searches rest on `memchr_exact_iff`: for a call that C defines, the scan ends in the block.  The
copies rest on `load_bytes_exact_iff` for the bytes that are read, on `Session.Tracked.store_known`
for those that are written and on `Session.Tracked.store_frame` for the others.
-/

namespace Borealis

open Lib

/-! ## The functions -/

/-- The exceptions of the engine: those of the simulator, and `std::logic_error`. -/
inductive LibFault where
  | simulator (e : Fault)
  | logicError (what : String)
deriving DecidableEq

/-- `unmeaningfulPtr`, the only opaque pointer. -/
def opaquePtr : ℕ :=
  2 ^ 8

/-- What the engine does not keep in the tree: the memory of global variables, and the bytes of
buffers that were never initialized. -/
structure Outside where
  globalMemory : ℕ → ℕ → Except Fault (List (Option UInt8))
  globalStore : ℕ → List UInt8 → Except Fault Unit
  globalMemChr : ℕ → UInt8 → ℕ → Except Fault (Option ℕ)
  junk : ℕ → UInt8

/-- The slices that a load of several bytes fills before it says `ValueState::UNKNOWN`. -/
def copiedSlices (tree : SegmentTree) (size : ℕ) : (fuel ptr offset loaded : ℕ) → List Slice
  | 0, _, _, _ => []
  | fuel + 1, ptr, offset, loaded =>
    if ¬ loaded < size then []
    else
      match (tree.get ptr).1 with
      | .error _ => []
      | .ok current =>
        let currentSize := sliceSize tree.chunkSize size offset loaded
        if ¬ ptrAdd loaded currentSize ≤ size then []
        else if current.memState = .uninit then []
        else
          match current.copy currentSize with
          | .error _ => []
          | .ok bytes =>
            ⟨loaded, bytes⟩ :: copiedSlices tree size fuel (ptrAdd ptr currentSize)
              (ptrAdd offset currentSize) (ptrAdd loaded currentSize)

/-- A buffer of `size` zeros into which slices were copied. -/
def fillBuffer (junk : ℕ → UInt8) (size : ℕ) (slices : List Slice) : List UInt8 :=
  (List.range size).map fun j =>
    match slices.find? fun p => p.first ≤ j ∧ j < p.first + p.bytes.length with
    | none => 0
    | some p => (p.bytes[j - p.first]?.join).getD (junk j)

namespace MemorySimulator

variable (m : MemorySimulator) (out : Outside)

/-- `MemChr`. -/
def memChr (ptr : ℕ) (ch : UInt8) (limit : ℕ) : Except Fault (Option ℕ) :=
  if !m.isAPointer ptr then .error (.illegalLoad ptr)
  else if 2 ^ 10 ≤ ptr ∧ ptr < 2 ^ 20 then out.globalMemChr ptr ch limit
  else m.tree.memchr out.junk ptr ch limit

/-- `StoreBytesToMemory`. -/
def storeBytesToMemory (data : List UInt8) (addr : ℕ) : Except Fault Unit × MemorySimulator :=
  if !m.isAPointer addr then (.error (.illegalStore addr), m)
  else if 2 ^ 10 ≤ addr ∧ addr < 2 ^ 20 then (out.globalStore addr data, m)
  else m.store addr data

/-- `memchr`. -/
def executeMemchr (ptr ch limit : ℕ) : Except Fault (Option ℕ) :=
  m.memChr out ptr (UInt8.ofNat (min ch 255)) (getLimitedValue limit)

/-- `executeStrLen`.  `width` is `getIntegerBitWidth` of the type of the result. -/
def executeStrLen (width : Except Fault ℕ) (ptr : ℕ) : Except Fault ℕ :=
  match m.memChr out ptr 0 (2 ^ 64 - 1) with
  | .error e => .error e
  -- the difference is taken from a null pointer too
  | .ok found => width.map fun w => ptrSub (found.getD 0) ptr % 2 ^ w

/-- `strchr`, whose length has the type of its own result. -/
def executeStrchr (width : Except Fault ℕ) (ptr ch : ℕ) : Except Fault (Option ℕ) :=
  match m.executeStrLen out width ptr with
  | .error e => .error e
  -- the terminator is behind the limit
  | .ok strlen => m.memChr out ptr (UInt8.ofNat (min ch 255)) (getLimitedValue strlen)

/-- `executeMemcpy`.  `threshold` is the entry `memcpy-exec-factor`. -/
def executeMemcpy (threshold fuel dst src size : ℕ) : Except LibFault ℕ × MemorySimulator :=
  let size := getLimitedValue size
  if ¬ size ≤ threshold * m.tree.chunkSize % 2 ^ 64 then
    (.error (.logicError "full memcpy not implemented yet"), m)
  else if dst = opaquePtr then
    (.error (.logicError "Cannot store to a symbolic location"), m)
  else if src = opaquePtr then
    (.error (.logicError "Cannot load from a symbolic location with no instruction"), m)
  else
    match m.loadBytesFromMemory out.globalMemory fuel src size with
    | .error e => (.error (.simulator e), m)
    | .ok loaded =>
      -- the load may have said that memory is unknown, which is not asked
      let slices := loaded.getD
        (copiedSlices m.tree size fuel src (ptrSub src m.tree.start) 0)
      match m.storeBytesToMemory out (fillBuffer out.junk size slices) dst with
      | (.error e, m) => (.error (.simulator e), m)
      | (.ok _, m) => (.ok dst, m)

/-- `executeMemmove`. -/
def executeMemmove (threshold fuel dst src size : ℕ) : Except LibFault ℕ × MemorySimulator :=
  m.executeMemcpy out threshold fuel dst src size

/-- `executeMemset`. -/
def executeMemset (dst ch size : ℕ) : Except Fault ℕ × MemorySimulator :=
  if !m.isAPointer dst then (.error (.illegalStore dst), m)
  else
    let (result, m) := m.memset dst (UInt8.ofNat (getLimitedValue ch)) (getLimitedValue size)
    (result.map fun _ => dst, m)

/-- The case `strcat`, and the end of the case `strcpy`: a copy of the characters behind the string,
and no result. -/
def executeStrcat (threshold fuel dst src : ℕ) : Except LibFault (Option ℕ) × MemorySimulator :=
  match m.executeStrLen out (.ok 64) dst, m.executeStrLen out (.ok 64) src with
  | .error e, _ => (.error (.simulator e), m)
  | .ok _, .error e => (.error (.simulator e), m)
  -- the length of the copy leaves the terminator out
  | .ok lstrlen, .ok rstrlen =>
    match m.executeMemcpy out threshold fuel (ptrAdd dst (getLimitedValue lstrlen)) src rstrlen with
    | (.error e, m) => (.error e, m)
    | (.ok _, m) => (.ok none, m)

/-- The case `strcpy`, which goes on with the next one. -/
def executeStrcpy (threshold fuel dst src : ℕ) : Except LibFault (Option ℕ) × MemorySimulator :=
  match m.executeStrLen out (.ok 64) src with
  | .error e => (.error (.simulator e), m)
  | .ok strlen =>
    match m.executeMemcpy out threshold fuel dst src ((strlen + 1) % 2 ^ 64) with
    | (.error e, m) => (.error e, m)
    -- nothing ends the case
    | (.ok _, m) => executeStrcat m out threshold fuel dst src

end MemorySimulator

/-! ## Searches -/

section Search

variable {L : Layout} {s : Session} {A : Allocation} {addr n : ℕ} {ch : UInt8} (out : Outside)

theorem Scan.found_ne_illegal (a : ℕ) : Scan.found a ≠ .illegal := by
  intro h
  cases h

theorem Scan.absent_ne_illegal : Scan.absent ≠ .illegal := by decide

theorem Session.scan_known (hin : A.Contains addr) {v : UInt8} (hvalue : s.value addr = some v) :
    s.scan A ch (n + 1) addr = if v = ch then .found addr else s.scan A ch n (addr + 1) := by
  rw [scan, if_neg (not_not.mpr hin), hvalue]

/-- A scan that is legal begins with a byte of the block. -/
theorem Session.scan_step (hlegal : s.scan A ch (n + 1) addr ≠ .illegal) :
    A.Contains addr ∧ ∃ v, s.value addr = some v := by
  rw [scan] at hlegal
  split at hlegal
  · exact absurd rfl hlegal
  · next hin =>
      refine ⟨not_not.mp hin, ?_⟩
      cases hvalue : s.value addr with
      | none =>
          rw [hvalue] at hlegal
          exact absurd rfl hlegal
      | some v => exact ⟨v, rfl⟩

/-- A scan that ends in the block does not come to where it may not read on. -/
theorem Session.stopsIn_of_legal (junk : ℕ → UInt8) (hlegal : s.scan A ch n addr ≠ .illegal) :
    s.StopsIn A junk ch n addr := by
  induction n generalizing addr with
  | zero => exact fun k hk => absurd hk (Nat.not_lt_zero k)
  | succ n ih =>
      obtain ⟨hin, v, hvalue⟩ := Session.scan_step hlegal
      by_cases hfound : v = ch
      · intro k hk hpass hstop
        rcases Nat.eq_zero_or_pos k with rfl | hpos
        · exact absurd ⟨hin, by rw [Nat.add_zero, hvalue]; rfl⟩ hstop
        · obtain ⟨-, v', hvalue', hne⟩ := hpass 0 hpos
          rw [Nat.add_zero, hvalue] at hvalue'
          exact absurd ((Option.some.inj hvalue').symm.trans hfound) hne
      · rw [Session.scan_known hin hvalue, if_neg hfound] at hlegal
        exact (Session.stopsIn_succ hin hvalue hfound).mpr (ih hlegal)

/-- A live byte is in the tree. -/
theorem Session.Tracked.mem_of_contains (h : s.Tracked L) (hA : A ∈ s.live)
    (hin : A.Contains addr) : Layout.start ≤ addr ∧ addr < L.stop := by
  obtain ⟨⟨k, hlevel, -, hnode⟩, -⟩ := h.block A hA
  have hbase : Layout.start ≤ A.base := hnode.le_base
  have hend : A.base + span L.chunkSize k ≤ L.stop := hnode.end_le
  have hle := hlevel.le
  have hlo := hin.1
  have hhi := hin.2
  omega

theorem Session.memChr_eq (hs : s.sim.HasLayout L) (hlo : Layout.start ≤ addr) (hhi : addr < L.stop)
    (ch : UInt8) (limit : ℕ) :
    s.sim.memChr out addr ch limit = s.sim.tree.memchr out.junk addr ch limit := by
  unfold MemorySimulator.memChr
  rw [hs.isAPointer hlo hhi, if_neg (Layout.not_constant hlo)]
  rfl

/-- The limit of a search does not get in its way. -/
def Session.Limited (L : Layout) (s : Session) (junk : ℕ → UInt8) (ch : UInt8) (limit addr : ℕ) :
    Prop :=
  (limit < 2 ^ 63 ∨ limit = 2 ^ 64 - 1) ∧
    ¬ (limit ≠ 2 ^ 64 - 1 ∧ s.Overflows L junk ch limit addr)

/-- A search that C defines is the scan of the block. -/
theorem Session.memChr_describes
    (hrun : Reachable Session.step (Session.Fresh L) (Session.init L) s) (hA : A ∈ s.live)
    (hin : A.Contains addr) (hlegal : s.scan A ch n addr ≠ .illegal) (hn : n < 2 ^ 64)
    (hlimited : s.Limited L out.junk ch n addr) :
    (s.scan A ch n addr).Describes (s.sim.memChr out addr ch n) := by
  have h := Session.tracked_of_reachable hrun
  obtain ⟨hlo, hhi⟩ := h.mem_of_contains hA hin
  rw [s.memChr_eq out h.layout hlo hhi]
  apply (memchr_exact_iff L hrun hA hin out.junk ch hn).mpr
  exact ⟨hlimited.1, hlimited.2, Session.stopsIn_of_legal out.junk hlegal⟩

/-- There is a string of `n` characters. -/
def Session.IsString (s : Session) (A : Allocation) (addr n : ℕ) : Prop :=
  s.scan A 0 (2 ^ 64 - 1) addr = .found (addr + n)

theorem Session.le_of_scan_found {a : ℕ} (hfound : s.scan A ch n addr = .found a) : addr ≤ a := by
  induction n generalizing addr with
  | zero => cases hfound
  | succ n ih =>
      have hlegal : s.scan A ch (n + 1) addr ≠ .illegal := by
        rw [hfound]
        exact Scan.found_ne_illegal a
      obtain ⟨hin, v, hvalue⟩ := Session.scan_step hlegal
      rw [Session.scan_known hin hvalue] at hfound
      split at hfound
      · exact (Scan.found.inj hfound).le
      · exact Nat.le_of_succ_le (ih hfound)

/-- The terminator of a string is not one of its characters, and all of them may be read. -/
theorem Session.scan_string {limit : ℕ} (hstring : s.scan A 0 limit addr = .found (addr + n))
    (hch : ch ≠ 0) :
    s.scan A ch (n + 1) addr = s.scan A ch n addr ∧ s.scan A ch n addr ≠ .illegal ∧
      A.Contains (addr + n) := by
  induction limit generalizing addr n with
  | zero => cases hstring
  | succ limit ih =>
      have hlegal : s.scan A 0 (limit + 1) addr ≠ .illegal := by
        rw [hstring]
        exact Scan.found_ne_illegal _
      obtain ⟨hin, v, hvalue⟩ := Session.scan_step hlegal
      rw [Session.scan_known hin hvalue] at hstring
      split at hstring
      · next hzero =>
          have hn : n = 0 := by
            have := Scan.found.inj hstring
            omega
          subst hn
          refine ⟨?_, Scan.absent_ne_illegal, hin⟩
          rw [Session.scan_known hin hvalue, if_neg (hzero ▸ hch.symm)]
          rfl
      · next hnonzero =>
          have hle := Session.le_of_scan_found hstring
          obtain ⟨n, rfl⟩ : ∃ m, n = m + 1 := ⟨n - 1, by omega⟩
          have hnext : addr + (n + 1) = addr + 1 + n := by omega
          rw [hnext] at hstring ⊢
          obtain ⟨heq, hrest, hcontains⟩ := ih hstring
          refine ⟨?_, ?_, hcontains⟩
          · rw [Session.scan_known hin hvalue, Session.scan_known hin hvalue, heq]
          · rw [Session.scan_known hin hvalue]
            split
            · exact Scan.found_ne_illegal addr
            · exact hrest

/-- **`memchr`** is the scan of the block for the character as an `unsigned char`. -/
theorem Session.memchr_right
    (hrun : Reachable Session.step (Session.Fresh L) (Session.init L) s) (hA : A ∈ s.live)
    (hin : A.Contains addr) {c limit : ℕ} (hlimit : limit < 2 ^ 64)
    (hlegal : s.scan A (UInt8.ofNat c) limit addr ≠ .illegal)
    (hch : UInt8.ofNat (min c 255) = UInt8.ofNat c)
    (hlimited : s.Limited L out.junk (UInt8.ofNat c) limit addr) :
    (s.scan A (UInt8.ofNat c) limit addr).Describes (s.sim.executeMemchr out addr c limit) := by
  have hsize : getLimitedValue limit = limit := Nat.min_eq_left (by omega)
  unfold MemorySimulator.executeMemchr
  rw [hsize, hch]
  exact s.memChr_describes out hrun hA hin hlegal hlimit hlimited

/-- **`strlen`** is the number of characters. -/
theorem Session.strlen_right
    (hrun : Reachable Session.step (Session.Fresh L) (Session.init L) s) (hA : A ∈ s.live)
    (hin : A.Contains addr) (hstring : s.IsString A addr n) {w : ℕ} (hw : n < 2 ^ w) :
    s.sim.executeStrLen out (.ok w) addr = .ok n := by
  have hlegal : s.scan A 0 (2 ^ 64 - 1) addr ≠ .illegal := by
    rw [hstring]
    exact Scan.found_ne_illegal _
  have hfound := s.memChr_describes out hrun hA hin hlegal (by norm_num)
    ⟨Or.inr rfl, fun h => h.1 rfl⟩
  rw [hstring] at hfound
  have hresult : s.sim.memChr out addr 0 (2 ^ 64 - 1) = .ok (some (addr + n)) := hfound
  have hcontains := (Session.scan_string hstring (show (1 : UInt8) ≠ 0 by decide)).2.2
  obtain ⟨-, hhi⟩ := (Session.tracked_of_reachable hrun).mem_of_contains hA hcontains
  have hstop := L.stop_lt
  have hsub : ptrSub (addr + n) addr = n := by
    rw [ptrSub_of_le (Nat.le_add_right addr n) (by omega), Nat.add_sub_cancel_left]
  unfold MemorySimulator.executeStrLen
  rw [hresult]
  change Except.ok (ptrSub (addr + n) addr % 2 ^ w) = _
  rw [hsub, Nat.mod_eq_of_lt hw]

/-- `strchr` asks for the width of a type that is a pointer. -/
theorem MemorySimulator.executeStrchr_error_ne (m : MemorySimulator) (e : Fault) (ptr c : ℕ)
    (p : Option ℕ) : m.executeStrchr out (.error e) ptr c ≠ .ok p := by
  unfold executeStrchr executeStrLen
  intro h
  cases hfound : m.memChr out ptr 0 (2 ^ 64 - 1) with
  | error e' =>
      rw [hfound] at h
      cases h
  | ok found =>
      rw [hfound] at h
      cases h

/-- **`strchr`** finds a character that is not the terminator. -/
theorem Session.strchr_right
    (hrun : Reachable Session.step (Session.Fresh L) (Session.init L) s) (hA : A ∈ s.live)
    (hin : A.Contains addr) (hstring : s.IsString A addr n) {w c : ℕ} (hw : n < 2 ^ w)
    (hch : UInt8.ofNat (min c 255) = UInt8.ofNat c) (hnonzero : UInt8.ofNat c ≠ 0)
    (hlimited : s.Limited L out.junk (UInt8.ofNat c) n addr) :
    (s.scan A (UInt8.ofNat c) (n + 1) addr).Describes
      (s.sim.executeStrchr out (.ok w) addr c) := by
  obtain ⟨heq, hlegal, hcontains⟩ := Session.scan_string hstring hnonzero
  obtain ⟨-, hhi⟩ := (Session.tracked_of_reachable hrun).mem_of_contains hA hcontains
  have hstop := L.stop_lt
  have hsize : getLimitedValue n = n := Nat.min_eq_left (by omega)
  unfold MemorySimulator.executeStrchr
  rw [s.strlen_right out hrun hA hin hstring hw, heq]
  dsimp only
  rw [hsize, hch]
  exact s.memChr_describes out hrun hA hin hlegal (by omega) hlimited

end Search

/-! ## Copies -/

section Copy

variable {L : Layout} {s : Session} {dst src n : ℕ} (out : Outside)

/-- The slices that fill a buffer give each of its bytes. -/
theorem find_slice {first last : ℕ} {slices : List Slice} (htiles : Tiles first last slices) {j : ℕ}
    (hlo : first ≤ j) (hhi : j < last) :
    ∃ p ∈ slices, (slices.find? fun p => p.first ≤ j ∧ j < p.first + p.bytes.length) = some p ∧
      p.first ≤ j ∧ j < p.first + p.bytes.length := by
  induction slices generalizing first with
  | nil =>
      obtain rfl : first = last := htiles
      omega
  | cons p rest ih =>
      obtain ⟨rfl, -, hrest⟩ := htiles
      by_cases hhere : j < p.first + p.bytes.length
      · exact ⟨p, List.mem_cons_self, List.find?_cons_of_pos (by simp [hlo, hhere]), hlo, hhere⟩
      · obtain ⟨q, hq, hfind, hmem⟩ := ih hrest (Nat.le_of_not_lt hhere)
        refine ⟨q, List.mem_cons_of_mem _ hq, ?_, hmem⟩
        rw [List.find?_cons_of_neg (by simp [hhere]), hfind]

/-- The buffer holds the bytes that were loaded and are known. -/
theorem Session.fillBuffer_eq {slices : List Slice} (htiles : Tiles 0 n slices)
    (hcopies : ∀ p ∈ slices, p.Copies L s src) (junk : ℕ → UInt8) {j : ℕ} (hj : j < n) {v : UInt8}
    (hv : s.value (src + j) = some v) : (fillBuffer junk n slices)[j]? = some v := by
  obtain ⟨p, hp, hfind, hlo, hhi⟩ := find_slice htiles (Nat.zero_le j) hj
  obtain ⟨i, hget, hbyte⟩ := (hcopies p hp).bytes_eq (j - p.first) (by omega)
  have haddr : src + p.first + (j - p.first) = src + j := by omega
  rw [haddr] at hget
  unfold value at hv
  rw [hget] at hv
  have hjoin : i.byte = some (some v) := Option.join_eq_some_iff.mp hv
  unfold fillBuffer
  rw [List.getElem?_map, List.getElem?_range hj]
  simp only [Option.map_some, hfind, hbyte, hjoin]
  rfl

/-- After a copy, the bytes of the destination are those that are known of the source, and the other
bytes have not changed. -/
structure Session.Copied (s s' : Session) (dst src n : ℕ) : Prop where
  bytes : ∀ j < n, ∀ v, s.value (src + j) = some v → s'.value (dst + j) = some v
  frame : ∀ a, ¬ (dst ≤ a ∧ a < dst + n) → s'.value a = s.value a

/-- After a memset, the bytes of the range are `fill`, and the other bytes have not changed. -/
structure Session.Filled (s s' : Session) (fill : UInt8) (dst n : ℕ) : Prop where
  bytes : ∀ j < n, s'.value (dst + j) = some fill
  frame : ∀ a, ¬ (dst ≤ a ∧ a < dst + n) → s'.value a = s.value a

/-- A pointer of C to `n` bytes points into a block, also where `n` is zero. -/
theorem Session.InOneBlock.split (h : s.InOneBlock src (max n 1)) :
    s.InOneBlock src n ∧ s.InBlocks src 1 := by
  obtain ⟨A, hA, hall⟩ := h
  refine ⟨⟨A, hA, fun a ha ha' => hall a ha (by omega)⟩, fun a ha ha' => ⟨A, hA, ?_⟩⟩
  exact hall a ha (by omega)

/-- The number of bytes of a block is not limited. -/
theorem Session.getLimitedValue_eq (h : s.Tracked L) (hblock : s.InOneBlock dst n) :
    getLimitedValue n = n := by
  have hlast := fun hpos : 0 < n => hblock.inBlocks.mem h hpos
  have hstop := L.stop_lt
  exact Nat.min_eq_left (by omega)

/-- A load of bytes that loads report copies them, or there is nothing to copy. -/
theorem Session.loadsExactly
    (hrun : Reachable Session.step (Session.Fresh L) (Session.init L) s)
    (hsrc : s.InBlocks src 1) (hread : s.Readable src n)
    (hload : n = 0 ∨ (src - Layout.start) % L.chunkSize = 0 ∨ L.chunkSize ≤ n) :
    s.LoadsExactly L out.globalMemory src n := by
  rcases Nat.eq_zero_or_pos n with rfl | hpos
  · have h := Session.tracked_of_reachable hrun
    obtain ⟨hlo, hhi⟩ := hsrc.mem h Nat.one_pos
    have hoffset : Layout.start + (src - Layout.start) = src := Nat.add_sub_cancel' hlo
    refine ⟨1, [], ?_, rfl, by simp⟩
    rw [h.layout.loadBytes_eq hoffset (Nat.lt_of_succ_le hhi)]
    simp only [loadLoop, lt_irrefl, not_false_iff, if_true]
  · exact (load_bytes_exact_iff L hrun out.globalMemory hpos hread).mpr
      (hload.resolve_left hpos.ne')

theorem Session.storeBytes_eq_perform (h : s.Tracked L) (hdst : s.InBlocks dst 1)
    (data : List UInt8) :
    s.sim.storeBytesToMemory out data dst =
      ((s.perform (.store dst data)).1, (s.perform (.store dst data)).2.sim) := by
  obtain ⟨hlo, hhi⟩ := hdst.mem h Nat.one_pos
  obtain ⟨hresult, hsim⟩ := @Session.perform_store s dst data
  unfold MemorySimulator.storeBytesToMemory
  rw [h.layout.isAPointer hlo (by omega), if_neg (Layout.not_constant hlo), hsim]
  exact Prod.ext hresult.symm rfl

/-- **`memcpy`** copies, if the load of the bytes and the store of them are exact. -/
theorem Session.memcpy_right
    (hrun : Reachable Session.step (Session.Fresh L) (Session.init L) s) {threshold : ℕ}
    (hsmall : n ≤ threshold * L.chunkSize % 2 ^ 64) (hdst : s.InOneBlock dst (max n 1))
    (hsrc : s.InOneBlock src (max n 1)) (hread : s.Readable src n)
    (hload : n = 0 ∨ (src - Layout.start) % L.chunkSize = 0 ∨ L.chunkSize ≤ n)
    (hstore : StoresExactly L.chunkSize L.power Layout.start dst n s.root) :
    ∃ fuel s', s.sim.executeMemcpy out threshold fuel dst src n = (.ok dst, s'.sim) ∧
      s.Copied s' dst src n := by
  have h := Session.tracked_of_reachable hrun
  obtain ⟨hblock, hfirst⟩ := hdst.split
  obtain ⟨-, hsrcfirst⟩ := hsrc.split
  obtain ⟨hsrclo, -⟩ := hsrcfirst.mem h Nat.one_pos
  obtain ⟨hdstlo, -⟩ := hfirst.mem h Nat.one_pos
  obtain ⟨fuel, slices, hloaded, htiles, hcopies⟩ :=
    Session.loadsExactly out hrun hsrcfirst hread hload
  have hlength : (fillBuffer out.junk n slices).length = n := by
    unfold fillBuffer
    rw [List.length_map, List.length_range]
  have hblocks : s.InBlocks dst (fillBuffer out.junk n slices).length := by
    rw [hlength]
    exact hblock.inBlocks
  obtain ⟨hok, -, hwritten⟩ := h.store_known hfirst hblocks
  have hsize := Session.getLimitedValue_eq h hblock
  have hlocated : ∀ a, Layout.start ≤ a → a ≠ opaquePtr := by
    intro a ha heq
    rw [heq] at ha
    exact absurd ha (by decide)
  refine ⟨fuel, (s.perform (.store dst (fillBuffer out.junk n slices))).2, ?_, ?_, ?_⟩
  · unfold MemorySimulator.executeMemcpy
    rw [hsize, h.layout.chunkSize, if_neg (not_not.mpr hsmall), if_neg (hlocated dst hdstlo),
      if_neg (hlocated src hsrclo), hloaded]
    dsimp only [Option.getD_some]
    rw [Session.storeBytes_eq_perform out h hfirst, hok]
  · intro j hj v hv
    have hbuffer := Session.fillBuffer_eq htiles hcopies out.junk hj hv
    rw [hwritten j (by omega), ← hbuffer]
    exact (List.getElem?_eq_getElem (by omega)).symm
  · intro a hout
    rw [← hlength] at hstore hout
    exact h.store_frame hfirst hblocks hstore hout

/-- The memset behind `executeMemset` fills its range, or there is nothing to fill. -/
theorem Session.memset_filled
    (hrun : Reachable Session.step (Session.Fresh L) (Session.init L) s) {fill : UInt8}
    (hdst : s.InOneBlock dst (max n 1))
    (hnone : n = 0 → KeepsBytes L.chunkSize fill L.power Layout.start dst s.root)
    (hsome : 0 < n → FillsExactly L.chunkSize fill L.power Layout.start dst n s.root) :
    (s.perform (.memset dst fill n)).1 = .ok () ∧
      s.Filled (s.perform (.memset dst fill n)).2 fill dst n := by
  obtain ⟨hblock, hfirst⟩ := hdst.split
  rcases Nat.eq_zero_or_pos n with rfl | hpos
  · obtain ⟨hok, hframe⟩ := (Session.tracked_of_reachable hrun).memset_nothing hfirst (hnone rfl)
    exact ⟨hok, fun j hj => absurd hj (Nat.not_lt_zero j), fun a _ => hframe a⟩
  · have hmemset := memset_exact L hrun fill hpos hblock (hsome hpos)
    refine ⟨hmemset.ok, fun j hj => ?_, fun a hout => ?_⟩
    · rw [Session.value_eq, hmemset.filled (dst + j) (Nat.le_add_right dst j) (by omega)]
      rfl
    · rw [Session.value_eq, Session.value_eq, hmemset.frame a hout]

/-- **`memset`** fills its range, if the walks of the memset may fill the nodes where they end. -/
theorem Session.memset_right
    (hrun : Reachable Session.step (Session.Fresh L) (Session.init L) s)
    (hdst : s.InOneBlock dst (max n 1)) {c : ℕ} (hc : c < 2 ^ 64)
    (hnone : n = 0 → KeepsBytes L.chunkSize (UInt8.ofNat c) L.power Layout.start dst s.root)
    (hsome : 0 < n → FillsExactly L.chunkSize (UInt8.ofNat c) L.power Layout.start dst n s.root) :
    ∃ s', s.sim.executeMemset dst c n = (.ok dst, s'.sim) ∧
      s.Filled s' (UInt8.ofNat c) dst n := by
  have h := Session.tracked_of_reachable hrun
  obtain ⟨hblock, hfirst⟩ := hdst.split
  obtain ⟨hlo, hhi⟩ := hfirst.mem h Nat.one_pos
  obtain ⟨hperform, hfilled⟩ := s.memset_filled hrun hdst hnone hsome
  have hsize := Session.getLimitedValue_eq h hblock
  have hchar : getLimitedValue c = c := Nat.min_eq_left (by omega)
  have hsim : (s.perform (.memset dst (UInt8.ofNat c) n)).2.sim =
      (s.sim.memset dst (UInt8.ofNat c) n).2 := Session.settle_sim fun _ _ => rfl
  have hok : (s.sim.memset dst (UInt8.ofNat c) n).1 = .ok () := by
    simp only [perform, settle] at hperform
    split at hperform
    · cases hperform
    · next v hv => exact hv
  refine ⟨(s.perform (.memset dst (UInt8.ofNat c) n)).2, ?_, hfilled⟩
  unfold MemorySimulator.executeMemset
  rw [h.layout.isAPointer hlo (by omega), hsize, hchar, hsim]
  dsimp only [Bool.not_true, Bool.false_eq_true, if_false]
  rw [hok]
  rfl

/-- `strcat` and `strcpy` return nothing. -/
theorem MemorySimulator.executeStrcat_ne (m : MemorySimulator) (threshold fuel : ℕ) (p : ℕ) :
    (m.executeStrcat out threshold fuel dst src).1 ≠ .ok (some p) := by
  unfold executeStrcat
  intro h
  split at h
  · cases h
  · cases h
  · split at h <;> cases h

theorem MemorySimulator.executeStrcpy_ne (m : MemorySimulator) (threshold fuel : ℕ) (p : ℕ) :
    (m.executeStrcpy out threshold fuel dst src).1 ≠ .ok (some p) := by
  unfold executeStrcpy
  intro h
  split at h
  · cases h
  · split at h
    · cases h
    · exact MemorySimulator.executeStrcat_ne out _ threshold fuel p h

end Copy

/-! ## Arithmetic -/

section Arith

variable {w : ℕ}

/-- `abs`. -/
def executeAbs (x : BitVec w) : BitVec w :=
  if x.msb then -x else x

/-- `countLeadingZeros`. -/
def countLeadingZeros (x : BitVec w) : ℕ :=
  w - x.toNat.size

/-- `ffs`, with a result of `r` bits. -/
def executeFfs (r : ℕ) (x : BitVec w) : BitVec r :=
  BitVec.ofNat r (countLeadingZeros x)

/-- `htons`. -/
def executeHtons (x : BitVec 16) : BitVec 16 :=
  x <<< 8 ||| x >>> 8

/-- `htonl`. -/
def executeHtonl (x : BitVec 32) : BitVec 32 :=
  x <<< 24 ||| (x &&& 0xff00) <<< 8 ||| x >>> 8 &&& 0xff00 ||| x >>> 24

/-- `isdigit`.  `beyond` is the answer of the host for what is not a character. -/
def executeIsdigit (beyond : Bool) (c : ℕ) : BitVec 1 :=
  let c := min c 256
  BitVec.ofBool (if c ≤ 255 then decide (48 ≤ c ∧ c ≤ 57) else beyond)

/-- What `ffs` returns: one more than the index of the lowest bit that is set, or zero. -/
def IsFfs (x : BitVec w) (r : ℕ) : Prop :=
  (x.toNat = 0 ∧ r = 0) ∨
    ∃ k, x.toNat.testBit k = true ∧ (∀ i < k, x.toNat.testBit i = false) ∧ r = k + 1

/-- The bytes of `y` are those of `x` in the opposite order. -/
def Swapped (bytes : ℕ) (x y : BitVec w) : Prop :=
  ∀ i < bytes, ∀ j < 8, y.getLsbD (8 * i + j) = x.getLsbD (8 * (bytes - 1 - i) + j)

theorem abs_right {x : BitVec w} (h : x ≠ BitVec.intMin w) :
    (executeAbs x).toInt = |x.toInt| := by
  have habs : executeAbs x = x.abs := rfl
  rw [habs, BitVec.toInt_abs_eq_ite_of_ne_intMin h, BitVec.msb_eq_toInt]
  by_cases hneg : x.toInt < 0
  · simp only [hneg, decide_true, if_true, abs_of_neg]
  · simp only [hneg, decide_false, Bool.false_eq_true, if_false, abs_of_nonneg (not_lt.mp hneg)]

/-- `ffs` counts zeros from the wrong end: it is right just in case as many bits lie above the
highest bit that is set as there are up to the lowest one. -/
theorem ffs_right_iff (hw : 0 < w) {r : ℕ} (hr : w < 2 ^ r) (x : BitVec w) :
    IsFfs x (executeFfs r x).toNat ↔
      ∃ k, x.toNat.testBit k = true ∧ (∀ i < k, x.toNat.testBit i = false) ∧
        k + 1 + x.toNat.size = w := by
  have hsize : x.toNat.size ≤ w := Nat.size_le.mpr x.isLt
  have hvalue : (executeFfs r x).toNat = w - x.toNat.size := by
    unfold executeFfs countLeadingZeros
    rw [BitVec.toNat_ofNat, Nat.mod_eq_of_lt (by omega)]
  rw [hvalue]
  constructor
  · intro hffs
    rcases hffs with ⟨hzero, hresult⟩ | ⟨k, hbit, hlow, hresult⟩
    · rw [hzero, Nat.size_zero] at hresult
      omega
    · exact ⟨k, hbit, hlow, by omega⟩
  · intro hbits
    obtain ⟨k, hbit, hlow, hsum⟩ := hbits
    exact Or.inr ⟨k, hbit, hlow, by omega⟩

theorem htons_right (x : BitVec 16) : Swapped 2 x (executeHtons x) := by
  intro i hi j hj
  interval_cases i <;> interval_cases j <;> simp [executeHtons]

theorem htonl_right (x : BitVec 32) : Swapped 4 x (executeHtonl x) := by
  intro i hi j hj
  interval_cases i <;> interval_cases j <;> simp [executeHtonl]

/-- A character is a digit as in C, and what is not a character, as the end of file, is one if the
host says so. -/
theorem isdigit_right (beyond : Bool) :
    (∀ c ≤ 255, executeIsdigit beyond c ≠ 0 ↔ 48 ≤ c ∧ c ≤ 57) ∧
      ∀ c, 255 < c → (executeIsdigit beyond c = 0 ↔ beyond = false) := by
  constructor
  · intro c hc
    have hmin : min c 256 = c := Nat.min_eq_left (by omega)
    unfold executeIsdigit
    simp only [hmin, hc, if_true]
    by_cases hdigit : 48 ≤ c ∧ c ≤ 57
    · simp [hdigit]
    · simp [hdigit]
  · intro c hc
    have hmin : min c 256 = 256 := Nat.min_eq_right hc
    unfold executeIsdigit
    rw [hmin]
    cases beyond <;> decide

end Arith

/-! ## Agreement with C -/

section Agreement

/-- What the functions on memory do in a state.  A call of C reads only what is initialized and
writes into one live block. -/
structure Session.AgreesOnMemory (L : Layout) (s : Session) (out : Outside) : Prop where
  memchr : ∀ A ∈ s.live, ∀ addr c limit, A.Contains addr → limit < 2 ^ 64 →
    s.scan A (UInt8.ofNat c) limit addr ≠ .illegal → UInt8.ofNat (min c 255) = UInt8.ofNat c →
    s.Limited L out.junk (UInt8.ofNat c) limit addr →
    (s.scan A (UInt8.ofNat c) limit addr).Describes (s.sim.executeMemchr out addr c limit)
  strlen : ∀ A ∈ s.live, ∀ addr n w, A.Contains addr → s.IsString A addr n → n < 2 ^ w →
    s.sim.executeStrLen out (.ok w) addr = .ok n
  strchr : ∀ A ∈ s.live, ∀ addr n c w, A.Contains addr → s.IsString A addr n → n < 2 ^ w →
    UInt8.ofNat (min c 255) = UInt8.ofNat c → UInt8.ofNat c ≠ 0 →
    s.Limited L out.junk (UInt8.ofNat c) n addr →
    (s.scan A (UInt8.ofNat c) (n + 1) addr).Describes (s.sim.executeStrchr out (.ok w) addr c)
  strchr_fails : ∀ e addr c p, s.sim.executeStrchr out (.error e) addr c ≠ .ok p
  memcpy : ∀ threshold dst src n, n ≤ threshold * L.chunkSize % 2 ^ 64 →
    s.InOneBlock dst (max n 1) → s.InOneBlock src (max n 1) → s.Readable src n →
    (n = 0 ∨ (src - Layout.start) % L.chunkSize = 0 ∨ L.chunkSize ≤ n) →
    StoresExactly L.chunkSize L.power Layout.start dst n s.root →
    ∃ fuel s', s.sim.executeMemcpy out threshold fuel dst src n = (.ok dst, s'.sim) ∧
      s.sim.executeMemmove out threshold fuel dst src n = (.ok dst, s'.sim) ∧
      s.Copied s' dst src n
  memset : ∀ dst c n, s.InOneBlock dst (max n 1) → c < 2 ^ 64 →
    (n = 0 → KeepsBytes L.chunkSize (UInt8.ofNat c) L.power Layout.start dst s.root) →
    (0 < n → FillsExactly L.chunkSize (UInt8.ofNat c) L.power Layout.start dst n s.root) →
    ∃ s', s.sim.executeMemset dst c n = (.ok dst, s'.sim) ∧ s.Filled s' (UInt8.ofNat c) dst n
  strcpy : ∀ threshold fuel dst src p,
    (s.sim.executeStrcpy out threshold fuel dst src).1 ≠ .ok (some p)
  strcat : ∀ threshold fuel dst src p,
    (s.sim.executeStrcat out threshold fuel dst src).1 ≠ .ok (some p)

/-- What the functions on numbers return, for every width. -/
structure AgreesOnNumbers : Prop where
  abs : ∀ (w : ℕ) (x : BitVec w), x ≠ BitVec.intMin w → (executeAbs x).toInt = |x.toInt|
  ffs : ∀ (w r : ℕ) (x : BitVec w), 0 < w → w < 2 ^ r →
    (IsFfs x (executeFfs r x).toNat ↔
      ∃ k, x.toNat.testBit k = true ∧ (∀ i < k, x.toNat.testBit i = false) ∧
        k + 1 + x.toNat.size = w)
  htons : ∀ x, Swapped 2 x (executeHtons x)
  htonl : ∀ x, Swapped 4 x (executeHtonl x)
  isdigit : ∀ beyond, (∀ c ≤ 255, executeIsdigit beyond c ≠ 0 ↔ 48 ≤ c ∧ c ≤ 57) ∧
    ∀ c, 255 < c → (executeIsdigit beyond c = 0 ↔ beyond = false)

/-- **The library agrees with C** for the calls that do not come to a case that its functions get
wrong, in every state that a run of fresh requests reaches, and for every number.  All calls of
`strcpy` and `strcat` do. -/
theorem std_lib_agrees (L : Layout) {s : Session}
    (hrun : Reachable Session.step (Session.Fresh L) (Session.init L) s) (out : Outside) :
    s.AgreesOnMemory L out ∧ AgreesOnNumbers := by
  refine ⟨⟨?memchr, ?strlen, ?strchr, ?strchr_fails, ?memcpy, ?memset, ?strcpy, ?strcat⟩,
    ⟨?abs, ?ffs, htons_right, htonl_right, isdigit_right⟩⟩
  case memchr =>
    intro A hA addr c limit hin hlimit hlegal hch hlimited
    exact s.memchr_right out hrun hA hin hlimit hlegal hch hlimited
  case strlen =>
    intro A hA addr n w hin hstring hw
    exact s.strlen_right out hrun hA hin hstring hw
  case strchr =>
    intro A hA addr n c w hin hstring hw hch hnonzero hlimited
    exact s.strchr_right out hrun hA hin hstring hw hch hnonzero hlimited
  case strchr_fails =>
    intro e addr c p
    exact s.sim.executeStrchr_error_ne out e addr c p
  case memcpy =>
    intro threshold dst src n hsmall hdst hsrc hread hload hstore
    obtain ⟨fuel, s', hcopy, hcopied⟩ :=
      s.memcpy_right out hrun hsmall hdst hsrc hread hload hstore
    exact ⟨fuel, s', hcopy, hcopy, hcopied⟩
  case memset =>
    intro dst c n hdst hc hnone hsome
    exact s.memset_right hrun hdst hc hnone hsome
  case strcpy =>
    intro threshold fuel dst src p
    exact s.sim.executeStrcpy_ne out threshold fuel p
  case strcat =>
    intro threshold fuel dst src p
    exact s.sim.executeStrcat_ne out threshold fuel p
  case abs =>
    intro w x hx
    exact abs_right hx
  case ffs =>
    intro w r x hw hr
    exact ffs_right_iff hw hr x

/-- No memory outside of the tree. -/
def noOutside : Outside where
  globalMemory _ _ := .ok []
  globalStore _ _ := .ok ()
  globalMemChr _ _ _ := .ok none
  junk _ := 0

/-- A block of zeros starts with the empty string. -/
theorem zeroedSession_isString :
    zeroedSession.IsString ⟨2 ^ 20 + 32, 8, 8, .malloc, .memset⟩ (2 ^ 20 + 32) 0 := by
  have hsize : (2 ^ 64 - 1 : ℕ) = 2 ^ 64 - 2 + 1 := by norm_num
  have hin : Allocation.Contains ⟨2 ^ 20 + 32, 8, 8, .malloc, .memset⟩ (2 ^ 20 + 32) := by decide
  have hvalue : zeroedSession.value (2 ^ 20 + 32) = some 0 := rfl
  unfold Session.IsString
  rw [hsize, Session.scan_known hin hvalue]
  rfl

/-- The length of the empty string at the start of a block of zeros. -/
theorem std_lib_agrees_zeroed :
    zeroedSession.sim.executeStrLen noOutside (.ok 64) (2 ^ 20 + 32) = .ok 0 :=
  (std_lib_agrees eightChunks zeroedSession_reachable noOutside).1.strlen
    ⟨2 ^ 20 + 32, 8, 8, .malloc, .memset⟩ (by decide) (2 ^ 20 + 32) 0 64 (by decide)
    zeroedSession_isString (by decide)

/-- A string that is copied into its own block behind its end, and the lowest bit of one. -/
theorem strcpy_returns_nothing :
    (¬ ∀ (L : Layout) (s : Session),
        Reachable Session.step (Session.Fresh L) (Session.init L) s →
        ∀ out threshold, ∀ A ∈ s.live, ∀ dst src n, A.Contains src → s.IsString A src n →
          s.InOneBlock dst (n + 1) → src + n < dst →
          ∃ fuel, (s.sim.executeStrcpy out threshold fuel dst src).1 = .ok (some dst)) ∧
      ¬ ∀ x : BitVec 32, IsFfs x (executeFfs 32 x).toNat := by
  constructor
  · intro hclaim
    obtain ⟨fuel, hreturns⟩ := hclaim eightChunks _ zeroedSession_reachable noOutside 1024
      ⟨2 ^ 20 + 32, 8, 8, .malloc, .memset⟩ (by decide) (2 ^ 20 + 33) (2 ^ 20 + 32) 0 (by decide)
      zeroedSession_isString ⟨⟨2 ^ 20 + 32, 8, 8, .malloc, .memset⟩, by decide, fun a ha ha' => by
        simp only [Allocation.Contains]
        omega⟩ (by decide)
    exact zeroedSession.sim.executeStrcpy_ne noOutside 1024 fuel (2 ^ 20 + 33) hreturns
  · intro hclaim
    rcases hclaim 1 with ⟨hzero, -⟩ | ⟨k, hbit, -, hresult⟩
    · exact absurd hzero (by decide)
    · have hfirst : (executeFfs 32 (1 : BitVec 32)).toNat = 31 := by decide
      rw [hfirst] at hresult
      obtain rfl : k = 30 := by omega
      exact absurd hbit (by decide)

end Agreement

end Borealis
