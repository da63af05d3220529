import Borealis.Executor.StoreExact
import Mathlib.Data.Nat.Digits.Defs

/-!
# Stores and loads of integers

`StoreIntToMemory` copies the bytes of the words of an integer, and `LoadIntFromMemory` copies them
back into words that are zero.  A load looks at the node of its first byte only, and refuses bytes
that are not in one chunk.

## Strategy

After a store, its bytes are known (`Session.Tracked.store_known`).  A load from one chunk gives
what loads of the single bytes give (`IntervalState.copy_eq`), so that it is a question of the bytes
whether the words are proper.
-/

namespace Borealis

open Lib

/-! ## Integers -/

/-- The lowest bytes of a number, as a little-endian host has them. -/
def rawBytes : (size value : ℕ) → List UInt8
  | 0, _ => []
  | size + 1, value => UInt8.ofNat value :: rawBytes size (value / 256)

/-- The number that the bytes stand for. -/
def ofRawBytes (bytes : List UInt8) : ℕ :=
  Nat.ofDigits 256 (bytes.map UInt8.toNat)

/-- `getTypeStoreSize` of an integer type. -/
def storeSize (w : ℕ) : ℕ :=
  (w + 7) / 8

@[simp] theorem length_rawBytes (size value : ℕ) : (rawBytes size value).length = size := by
  induction size generalizing value with
  | zero => rfl
  | succ size ih => rw [rawBytes, List.length_cons, ih]

/-- The lowest bytes stand for the number modulo their range. -/
theorem ofRawBytes_rawBytes (size value : ℕ) :
    ofRawBytes (rawBytes size value) = value % 256 ^ size := by
  induction size generalizing value with
  | zero => exact (Nat.mod_one value).symm
  | succ size ih =>
      calc ofRawBytes (rawBytes (size + 1) value)
          = value % 256 + 256 * ofRawBytes (rawBytes size (value / 256)) := rfl
        _ = value % 256 + 256 * (value / 256 % 256 ^ size) := by rw [ih]
        _ = value % 256 ^ (size + 1) := by rw [pow_succ', Nat.mod_mul]

theorem toNat_lt_storeSize {w : ℕ} (v : BitVec w) : v.toNat < 256 ^ storeSize w := by
  have hpow : (256 : ℕ) ^ storeSize w = 2 ^ (8 * storeSize w) := by
    rw [pow_mul]
    norm_num
  rw [hpow]
  refine v.isLt.trans_le (Nat.pow_le_pow_right Nat.two_pos ?_)
  unfold storeSize
  omega

/-! ## Stores and loads -/

/-- The exceptions of a load of an integer: those of the simulator and `unsupported`. -/
inductive IntFault where
  | simulator (e : Fault)
  | unsupported (addr : ℕ)
deriving DecidableEq

namespace MemorySimulator

variable (m : MemorySimulator)

/-- `StoreIntToMemory`, and `StoreBytesToMemory` that it calls.  `globalStore` stands for the memory
of global variables. -/
def storeIntToMemory (globalStore : ℕ → List UInt8 → Except Fault Unit) {w : ℕ} (v : BitVec w)
    (addr size : ℕ) : Except Fault Unit × MemorySimulator :=
  if !m.isAPointer addr then (.error (.illegalStore addr), m)
  else if 2 ^ 10 ≤ addr ∧ addr < 2 ^ 20 then (globalStore addr (rawBytes size v.toNat), m)
  else m.store addr (rawBytes size v.toNat)

/-- `LoadIntFromMemory`: the bytes it copies into the words of the integer, or nothing for
`ValueState::UNKNOWN`. -/
def loadIntFromMemory (globalMemory : ℕ → ℕ → Except Fault (List (Option UInt8)))
    (addr size : ℕ) : Except IntFault (Option (List (Option UInt8))) :=
  if !m.isAPointer addr then .error (.simulator (.illegalLoad addr))
  else if ¬ size ≤ m.tree.chunkSize then .error (.simulator .assertion)
  else if addr / m.tree.chunkSize ≠ ptrSub (ptrAdd addr size) 1 / m.tree.chunkSize then
    .error (.unsupported addr)
  else if 2 ^ 10 ≤ addr ∧ addr < 2 ^ 20 then
    match globalMemory addr size with
    | .error e => .error (.simulator e)
    | .ok bytes => .ok (some bytes)
  else
    match (m.tree.get addr).1 with
    | .error e => .error (.simulator e)
    | .ok load =>
      if load.memState = .uninit then .ok none
      else
        match load.copy size with
        | .error e => .error (.simulator e)
        | .ok bytes => .ok (some bytes)

/-- `StoreValueToMemory` at an integer type. -/
def storeValueToMemory (globalStore : ℕ → List UInt8 → Except Fault Unit) {w : ℕ} (v : BitVec w)
    (addr : ℕ) : Except Fault Unit × MemorySimulator :=
  m.storeIntToMemory globalStore v addr (storeSize w)

/-- `LoadValueFromMemory` at the integer type of width `w`. -/
def loadValueFromMemory (globalMemory : ℕ → ℕ → Except Fault (List (Option UInt8))) (w addr : ℕ) :
    Except IntFault (Option (List (Option UInt8))) :=
  m.loadIntFromMemory globalMemory addr (storeSize w)

end MemorySimulator

section Session

variable {L : Layout} {s : Session} {w addr : ℕ}

/-- The bytes are not in one chunk. -/
def Layout.Crosses (L : Layout) (addr size : ℕ) : Prop :=
  L.chunkOf addr ≠ L.chunkOf (addr + (size - 1))

/-- The words of the loaded integer hold the number. -/
def Holds (result : Except IntFault (Option (List (Option UInt8)))) (n : ℕ) : Prop :=
  ∃ bytes : List UInt8, result = .ok (some (bytes.map some)) ∧ ofRawBytes bytes = n

/-- A store of any integer is accepted, and a load finds the integer, or is refused if its bytes are
not in one chunk. -/
def Session.RoundTrips (L : Layout) (s : Session)
    (globalStore : ℕ → List UInt8 → Except Fault Unit)
    (globalMemory : ℕ → ℕ → Except Fault (List (Option UInt8))) (w addr : ℕ) : Prop :=
  ∀ v : BitVec w,
    (s.sim.storeValueToMemory globalStore v addr).1 = .ok () ∧
      let result := (s.sim.storeValueToMemory globalStore v addr).2.loadValueFromMemory
        globalMemory w addr
      (L.Crosses addr (storeSize w) → result = .error (.unsupported addr)) ∧
        (¬ L.Crosses addr (storeSize w) → Holds result v.toNat)

/-- A load of an integer finds the number of its bytes, of which it takes the lowest `w` bits, and
says so if one of them is not initialized; or it is refused if its bytes are not in one chunk. -/
def Session.LoadsProperly (L : Layout) (s : Session)
    (globalMemory : ℕ → ℕ → Except Fault (List (Option UInt8))) (w addr : ℕ) : Prop :=
  let result := s.sim.loadValueFromMemory globalMemory w addr
  (L.Crosses addr (storeSize w) → result = .error (.unsupported addr)) ∧
    (¬ L.Crosses addr (storeSize w) →
      (∀ bytes : List UInt8, bytes.length = storeSize w → s.Known addr bytes →
        Holds result (ofRawBytes bytes % 2 ^ w)) ∧
      ((∃ j < storeSize w, s.value (addr + j) = none) → result = .ok none))

/-- The integer is not longer than a chunk, and the chunks that the load counts from zero begin
where those of the tree do, as far as the integer can tell. -/
def Layout.Counts (L : Layout) (addr size : ℕ) : Prop :=
  size ≤ L.chunkSize ∧
    (addr / L.chunkSize ≠ (addr + (size - 1)) / L.chunkSize ↔ L.Crosses addr size)

/-- Known bytes stand for a number of `w` bits, and where one of the bytes is not initialized the
node of the first one says so. -/
def Session.Proper (s : Session) (w addr : ℕ) : Prop :=
  (∀ bytes : List UInt8, bytes.length = storeSize w → s.Known addr bytes →
    ofRawBytes bytes < 2 ^ w) ∧
  ((∃ j < storeSize w, s.value (addr + j) = none) →
    ∃ i, s.get addr = .ok i ∧ i.memState = .uninit)

/-- What a load of an integer does with the node of its first byte. -/
def readInt (first : Except Fault IntervalState) (size : ℕ) :
    Except IntFault (Option (List (Option UInt8))) :=
  match first with
  | .error e => .error (.simulator e)
  | .ok load =>
    if load.memState = .uninit then .ok none
    else
      match load.copy size with
      | .error e => .error (.simulator e)
      | .ok bytes => .ok (some bytes)

/-- The load of an integer in the tree. -/
theorem Session.loadValue_eq (hs : s.sim.HasLayout L) (hlo : Layout.start ≤ addr) (hpos : 1 ≤ w)
    (hhi : addr + storeSize w ≤ L.stop)
    (globalMemory : ℕ → ℕ → Except Fault (List (Option UInt8))) :
    s.sim.loadValueFromMemory globalMemory w addr =
      if ¬ storeSize w ≤ L.chunkSize then .error (.simulator .assertion)
      else if addr / L.chunkSize ≠ (addr + (storeSize w - 1)) / L.chunkSize then
        .error (.unsupported addr)
      else readInt (s.get addr) (storeSize w) := by
  have hstop := L.stop_lt
  have hsize : 1 ≤ storeSize w := by
    unfold storeSize
    omega
  have hpointer := hs.isAPointer hlo (by omega : addr < L.stop)
  have hlast : ptrSub (ptrAdd addr (storeSize w)) 1 = addr + (storeSize w - 1) := by
    rw [ptrAdd_of_lt (by omega), ptrSub_of_le (by omega) (by omega)]
    omega
  unfold MemorySimulator.loadValueFromMemory MemorySimulator.loadIntFromMemory
  rw [hs.chunkSize, hlast, hpointer, if_neg (Layout.not_constant hlo)]
  rfl

/-! ## The node of the first byte -/

theorem readInt_eq_none_iff {first : Except Fault IntervalState} {size : ℕ} :
    readInt first size = .ok none ↔ ∃ i, first = .ok i ∧ i.memState = .uninit := by
  cases first with
  | error e =>
      refine iff_of_false (fun h => nomatch h) fun h => ?_
      obtain ⟨i, hi, -⟩ := h
      cases hi
  | ok i =>
      have hsome : (∃ i', (Except.ok i : Except Fault IntervalState) = .ok i' ∧
          i'.memState = .uninit) ↔ i.memState = .uninit := by
        constructor
        · intro h
          obtain ⟨i', hi, hstate⟩ := h
          obtain rfl := Except.ok.inj hi
          exact hstate
        · intro hstate
          exact ⟨i, rfl, hstate⟩
      rw [hsome]
      simp only [readInt]
      split
      · next hstate => exact iff_of_true rfl hstate
      · next hstate =>
          refine iff_of_false ?_ hstate
          cases i.copy size <;> exact fun h => nomatch h

/-- Bytes in one chunk end with the chunk of the first one. -/
theorem Layout.lt_of_not_crosses {size q : ℕ} (hcross : ¬ L.Crosses addr size)
    (hq : IsNode L.chunkSize L.power Layout.start 0 q) (hlo : q ≤ addr)
    (hhi : addr < q + L.chunkSize) : addr + (size - 1) < q + L.chunkSize := by
  obtain ⟨k, hk⟩ := L.exists_chunkOf_eq hq
  have hsame := not_not.mp hcross
  rw [hk addr hlo, hk (addr + (size - 1)) (by omega), Nat.div_eq_of_lt (by omega)] at hsame
  have hzero : (addr + (size - 1) - q) / L.chunkSize = 0 := by omega
  have hlt := Nat.lt_of_div_eq_zero L.pos hzero
  omega

/-- In one chunk, the node of the first byte answers for the others. -/
theorem Session.get_in_chunk (hs : s.sim.HasLayout L) {size : ℕ} {i : IntervalState}
    (hget : s.get addr = .ok i) (hcross : ¬ L.Crosses addr size) {j : ℕ} (hj : j < size) :
    s.get (addr + j) = .ok (i.shift j) := by
  apply Session.get_shift hs hget
  obtain ⟨hlo, hhi⟩ := Session.mem_of_get hs hget
  obtain ⟨q, hq, hqlo, hqhi⟩ := IsNode.exists_leaf hlo hhi
  have hextent := @le_extent _ _ _ _ s.root q hq hqlo hqhi
  have hlast := L.lt_of_not_crosses hcross hq hqlo hqhi
  change j < Borealis.extent L.chunkSize L.power Layout.start s.root addr
  omega

/-- A load in one chunk copies the bytes that are known. -/
theorem Session.readInt_of_known (hs : s.sim.HasLayout L) {bytes : List UInt8}
    (hpos : 0 < bytes.length) (hcross : ¬ L.Crosses addr bytes.length)
    (hknown : s.Known addr bytes) :
    readInt (s.get addr) bytes.length = .ok (some (bytes.map some)) := by
  have hfirst := hknown 0 hpos
  rw [Nat.add_zero] at hfirst
  unfold value at hfirst
  cases hget : s.get addr with
  | error e => rw [hget] at hfirst; cases hfirst
  | ok i =>
      rw [hget] at hfirst
      have hbyte : i.byte = some (some bytes[0]) := Option.join_eq_some_iff.mp hfirst
      obtain ⟨copied, hcopy, hlength, hcopied⟩ := IntervalState.copy_eq hbyte bytes.length
      have heq : copied = bytes.map some := by
        apply List.ext_getElem (by rw [hlength, List.length_map])
        intro j hj hj'
        rw [hlength] at hj
        have hvalue := hknown j hj
        unfold value at hvalue
        rw [Session.get_in_chunk hs hget hcross hj] at hvalue
        have hshift : (i.shift j).byte = some (some bytes[j]) := Option.join_eq_some_iff.mp hvalue
        have hsome := hcopied j hj
        rw [hshift] at hsome
        rw [List.getElem_map]
        exact (List.getElem?_eq_some_iff.mp hsome).2
      simp only [readInt, IntervalState.not_uninit hbyte, if_false, hcopy, heq]

/-- A value of each byte of a range is a list. -/
theorem Session.exists_known {size : ℕ} (h : ∀ j < size, s.value (addr + j) ≠ none) :
    ∃ bytes : List UInt8, bytes.length = size ∧ s.Known addr bytes := by
  refine ⟨(List.range size).map fun j => (s.value (addr + j)).getD 0, by simp, ?_⟩
  intro j hj
  rw [List.length_map, List.length_range] at hj
  obtain ⟨v, hv⟩ := Option.ne_none_iff_exists'.mp (h j hj)
  simp [hv]

theorem storeSize_pos (hpos : 1 ≤ w) : 0 < storeSize w := by
  unfold storeSize
  omega

theorem holds_iff {result : Except IntFault (Option (List (Option UInt8)))}
    {bytes : List UInt8} (hresult : result = .ok (some (bytes.map some))) {n : ℕ} :
    Holds result n ↔ ofRawBytes bytes = n := by
  constructor
  · intro hholds
    obtain ⟨bytes', hresult', hn⟩ := hholds
    rw [hresult] at hresult'
    have hmap := Option.some.inj (Except.ok.inj hresult')
    have heq : bytes = bytes' := (List.map_inj_right fun _ _ => Option.some.inj).mp hmap
    rw [heq, hn]
  · intro hn
    exact ⟨bytes, hresult, hn⟩

/-- A load is refused where it should be, and gives what it should where it should not be, just in
case the integer is counted as the chunks are and the node of its first byte gives it. -/
theorem Session.load_iff (hs : s.sim.HasLayout L) (hlo : Layout.start ≤ addr) (hpos : 1 ≤ w)
    (hhi : addr + storeSize w ≤ L.stop)
    (globalMemory : ℕ → ℕ → Except Fault (List (Option UInt8)))
    {P : Except IntFault (Option (List (Option UInt8))) → Prop} (hP : ∀ e, ¬ P (.error e)) :
    ((L.Crosses addr (storeSize w) →
        s.sim.loadValueFromMemory globalMemory w addr = .error (.unsupported addr)) ∧
      (¬ L.Crosses addr (storeSize w) → P (s.sim.loadValueFromMemory globalMemory w addr))) ↔
    L.Counts addr (storeSize w) ∧
      (¬ L.Crosses addr (storeSize w) → P (readInt (s.get addr) (storeSize w))) := by
  unfold Layout.Counts
  rw [s.loadValue_eq hs hlo hpos hhi globalMemory]
  by_cases hlong : storeSize w ≤ L.chunkSize
  swap
  · rw [if_pos hlong]
    refine iff_of_false ?_ fun h => hlong h.1.1
    intro h
    by_cases hcross : L.Crosses addr (storeSize w)
    · exact nomatch h.1 hcross
    · exact hP _ (h.2 hcross)
  rw [if_neg (not_not.mpr hlong)]
  by_cases hcount : addr / L.chunkSize ≠ (addr + (storeSize w - 1)) / L.chunkSize
  · rw [if_pos hcount]
    by_cases hcross : L.Crosses addr (storeSize w)
    · exact iff_of_true ⟨fun _ => rfl, fun h => absurd hcross h⟩
        ⟨⟨hlong, iff_of_true hcount hcross⟩, fun h => absurd hcross h⟩
    · refine iff_of_false ?_ fun h => hcross (h.1.2.mp hcount)
      intro h
      exact hP _ (h.2 hcross)
  · rw [if_neg hcount]
    by_cases hcross : L.Crosses addr (storeSize w)
    · refine iff_of_false ?_ fun h => hcount (h.1.2.mpr hcross)
      intro h
      have hresult := h.1 hcross
      unfold readInt at hresult
      -- the node of the first byte never refuses the load in this way
      split at hresult
      · cases hresult
      · split at hresult
        · cases hresult
        · split at hresult <;> cases hresult
    · constructor
      · intro h
        exact ⟨⟨hlong, iff_of_false hcount hcross⟩, h.2⟩
      · intro h
        exact ⟨fun h' => absurd h' hcross, h.2⟩

/-- The node of the first byte gives what it should just in case the bytes are proper. -/
theorem Session.readInt_proper_iff (hs : s.sim.HasLayout L) (hpos : 1 ≤ w)
    (hcross : ¬ L.Crosses addr (storeSize w)) :
    ((∀ bytes : List UInt8, bytes.length = storeSize w → s.Known addr bytes →
        Holds (readInt (s.get addr) (storeSize w)) (ofRawBytes bytes % 2 ^ w)) ∧
      ((∃ j < storeSize w, s.value (addr + j) = none) →
        readInt (s.get addr) (storeSize w) = .ok none)) ↔ s.Proper w addr := by
  refine and_congr ?_ (imp_congr_right fun _ => readInt_eq_none_iff)
  refine forall_congr' fun bytes => imp_congr_right fun hlength => imp_congr_right fun hknown => ?_
  rw [← hlength] at hcross ⊢
  have hread := Session.readInt_of_known hs (hlength ▸ storeSize_pos hpos) hcross hknown
  rw [holds_iff hread]
  constructor
  · intro heq
    rw [heq]
    exact Nat.mod_lt _ (Nat.two_pow_pos w)
  · intro hlt
    exact (Nat.mod_eq_of_lt hlt).symm

/-- The load of an integer of a live block does what it should just in case the integer is counted
as the chunks are, and its bytes are proper if they are in one chunk. -/
theorem Session.loadsProperly_iff (hs : s.sim.HasLayout L) (hlo : Layout.start ≤ addr)
    (hpos : 1 ≤ w) (hhi : addr + storeSize w ≤ L.stop)
    (globalMemory : ℕ → ℕ → Except Fault (List (Option UInt8))) :
    s.LoadsProperly L globalMemory w addr ↔
      L.Counts addr (storeSize w) ∧ (¬ L.Crosses addr (storeSize w) → s.Proper w addr) := by
  refine (s.load_iff hs hlo hpos hhi globalMemory
    (P := fun result =>
      (∀ bytes : List UInt8, bytes.length = storeSize w → s.Known addr bytes →
        Holds result (ofRawBytes bytes % 2 ^ w)) ∧
      ((∃ j < storeSize w, s.value (addr + j) = none) → result = .ok none)) ?_).trans ?_
  · -- the bytes are known, or one of them is not
    intro e h
    by_cases hall : ∀ j < storeSize w, s.value (addr + j) ≠ none
    · obtain ⟨bytes, hlength, hbytes⟩ := Session.exists_known hall
      obtain ⟨copied, hcopied, -⟩ := h.1 bytes hlength hbytes
      cases hcopied
    · push Not at hall
      cases h.2 hall
  · refine and_congr_right fun _ => forall_congr' fun hcross => ?_
    exact Session.readInt_proper_iff hs hpos hcross

/-- A store of an integer to a live block is a store of its bytes. -/
theorem Session.storeValue_eq (hs : s.sim.HasLayout L) (hlo : Layout.start ≤ addr)
    (hhi : addr < L.stop) (globalStore : ℕ → List UInt8 → Except Fault Unit) (v : BitVec w) :
    s.sim.storeValueToMemory globalStore v addr =
      s.sim.store addr (rawBytes (storeSize w) v.toNat) := by
  unfold MemorySimulator.storeValueToMemory MemorySimulator.storeIntToMemory
  rw [hs.isAPointer hlo hhi, if_neg (Layout.not_constant hlo)]
  rfl

/-- The round trip works just in case the integer is counted as the chunks are. -/
theorem Session.storesAndLoads_iff (h : s.Tracked L) (hpos : 1 ≤ w)
    (hblock : s.InOneBlock addr (storeSize w))
    (globalStore : ℕ → List UInt8 → Except Fault Unit)
    (globalMemory : ℕ → ℕ → Except Fault (List (Option UInt8))) (hlo : Layout.start ≤ addr)
    (hhi : addr + storeSize w ≤ L.stop) :
    s.RoundTrips L globalStore globalMemory w addr ↔ L.Counts addr (storeSize w) := by
  have hsize := storeSize_pos hpos
  have hfirst : s.InBlocks addr 1 := fun a ha ha' => hblock.inBlocks a ha (by omega)
  have hafter : ∀ v : BitVec w, ∃ s' : Session,
      (s.sim.storeValueToMemory globalStore v addr) = (.ok (), s'.sim) ∧ s'.sim.HasLayout L ∧
        s'.Known addr (rawBytes (storeSize w) v.toNat) := by
    intro v
    have hlength := length_rawBytes (storeSize w) v.toNat
    obtain ⟨hresult, hsim⟩ := @Session.perform_store s addr (rawBytes (storeSize w) v.toNat)
    obtain ⟨hok, htracked, hknown⟩ := @Session.Tracked.store_known L s addr
      (rawBytes (storeSize w) v.toNat) h hfirst (by rw [hlength]; exact hblock.inBlocks)
    refine ⟨_, ?_, htracked.layout, hknown⟩
    rw [s.storeValue_eq h.layout hlo (by omega)]
    exact Prod.ext (hresult.symm.trans hok) hsim.symm
  have hload : ∀ v : BitVec w,
      ((s.sim.storeValueToMemory globalStore v addr).1 = .ok () ∧
        let result := (s.sim.storeValueToMemory globalStore v addr).2.loadValueFromMemory
          globalMemory w addr
        (L.Crosses addr (storeSize w) → result = .error (.unsupported addr)) ∧
          (¬ L.Crosses addr (storeSize w) → Holds result v.toNat)) ↔
        L.Counts addr (storeSize w) := by
    intro v
    obtain ⟨s', hstore, hs', hknown⟩ := hafter v
    rw [hstore]
    have hiff := s'.load_iff hs' hlo hpos hhi globalMemory (P := fun result => Holds result v.toNat)
      (fun e h => by obtain ⟨bytes, hbytes, -⟩ := h; cases hbytes)
    refine ((and_iff_right rfl).trans hiff).trans (and_iff_left ?_)
    intro hcross
    have hlength := length_rawBytes (storeSize w) v.toNat
    have hread := Session.readInt_of_known hs' (by omega) (by rw [hlength]; exact hcross) hknown
    rw [hlength] at hread
    refine ⟨_, hread, ?_⟩
    rw [ofRawBytes_rawBytes, Nat.mod_eq_of_lt (toNat_lt_storeSize v)]
  constructor
  · intro htrips
    exact (hload 0).mp (htrips 0)
  · intro hcounts v
    exact (hload v).mpr hcounts

/-- **Integers are stored and loaded** just in case they are counted as the chunks are, and the
bytes that a load finds in one chunk are proper: in every state that a run of fresh requests
reaches, for every width, and every address whose bytes are in one live block. -/
theorem int_round_trip_iff (L : Layout) {s : Session}
    (hrun : Reachable Session.step (Session.Fresh L) (Session.init L) s)
    (globalStore : ℕ → List UInt8 → Except Fault Unit)
    (globalMemory : ℕ → ℕ → Except Fault (List (Option UInt8))) {w addr : ℕ} (hpos : 1 ≤ w)
    (hblock : s.InOneBlock addr (storeSize w)) :
    (s.RoundTrips L globalStore globalMemory w addr ↔ L.Counts addr (storeSize w)) ∧
      (s.LoadsProperly L globalMemory w addr ↔
        L.Counts addr (storeSize w) ∧
          (¬ L.Crosses addr (storeSize w) → s.Proper w addr)) := by
  have h := Session.tracked_of_reachable hrun
  obtain ⟨hlo, hhi⟩ := hblock.inBlocks.mem h (storeSize_pos hpos)
  constructor
  · exact Session.storesAndLoads_iff h hpos hblock globalStore globalMemory hlo hhi
  · exact Session.loadsProperly_iff h.layout hlo hpos hhi globalMemory

end Session

/-- Eight zeroed bytes of heap. -/
def zeroedSession : Session :=
  ((Session.init eightChunks).perform (.mallocMemory 8 .zero)).2

theorem zeroedSession_reachable :
    Reachable Session.step (Session.Fresh eightChunks) (Session.init eightChunks)
      zeroedSession := by
  have hfresh : (Session.init eightChunks).Fresh eightChunks (.mallocMemory 8 .zero) :=
    Session.placed_of_room rfl (show _ = Except.ok 8 from rfl) (by decide) (by decide)
  exact Session.reachable_perform Reachable.init (.mallocMemory 8 .zero) hfresh rfl

theorem zeroedSession_inOneBlock {s : Session} (hlive : s.live = zeroedSession.live) {size : ℕ}
    (hsize : size ≤ 8) : s.InOneBlock (2 ^ 20 + 32) size := by
  refine ⟨⟨2 ^ 20 + 32, 8, 8, .malloc, .memset⟩, by rw [hlive]; decide, fun a ha ha' => ?_⟩
  simp only [Allocation.Contains]
  omega

/-- Four bytes at the start of the block. -/
theorem int_round_trip_zeroed :
    zeroedSession.RoundTrips eightChunks (fun _ _ => .ok ()) (fun _ _ => .ok []) 32
      (2 ^ 20 + 32) := by
  refine (int_round_trip_iff eightChunks zeroedSession_reachable _ _ (by decide)
    (zeroedSession_inOneBlock rfl (by decide))).1.mpr ?_
  exact ⟨by decide, iff_of_false (by decide) (not_not.mpr (by decide))⟩

/-- A byte with all bits set is loaded as an integer of one bit. -/
theorem int_load_not_proper :
    ¬ ∀ (L : Layout) (s : Session),
      Reachable Session.step (Session.Fresh L) (Session.init L) s →
      ∀ globalMemory w addr, 1 ≤ w → s.InOneBlock addr (storeSize w) →
        s.LoadsProperly L globalMemory w addr := by
  intro hclaim
  have hrun := Session.reachable_perform zeroedSession_reachable (.memset (2 ^ 20 + 32) 255 8)
    (Session.placed_of_request_none rfl) rfl
  have hproper := hclaim eightChunks _ hrun (fun _ _ => .ok []) 1 (2 ^ 20 + 32) (by decide)
    (zeroedSession_inOneBlock rfl (by decide))
  have hknown : (zeroedSession.perform (.memset (2 ^ 20 + 32) 255 8)).2.Known (2 ^ 20 + 32)
      [255] := by
    intro j hj
    obtain rfl : j = 0 := by simpa using hj
    rfl
  obtain ⟨bytes, hload, hnumber⟩ := (hproper.2 (not_not.mpr (by decide))).1 [255] rfl hknown
  have hloaded : (zeroedSession.perform (.memset (2 ^ 20 + 32) 255 8)).2.sim.loadValueFromMemory
      (fun _ _ => .ok []) 1 (2 ^ 20 + 32) = .ok (some ([255].map some)) := rfl
  have hsame : ofRawBytes [255] = ofRawBytes bytes := (holds_iff hloaded).mp ⟨bytes, hload, rfl⟩
  rw [← hsame] at hnumber
  exact absurd hnumber (by decide)

end Borealis
