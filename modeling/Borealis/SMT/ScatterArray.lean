import Borealis.SMT.Logic

/-!
# Scattered memory

`ScatterArray` of `SMT/Logic.stub.hpp` for pointers and bytes of any size: a bit vector of any width
is stored in as many bytes as it needs, the lowest first, the last one sign-extended, and is read
back by putting whole bytes next to each other and cutting the result to the width.

Everything is said bit by bit: bit `k` of a value is bit `k % ElemSize` of the byte `k / ElemSize`,
for what `store` writes as for what `select` reads.  The memory of the Z3 back end is the instance
with 64 bits for both.
-/

namespace Borealis

namespace SMT

namespace ScatterArray

variable {p ElemSize : ℕ}

/-- The last index of the loops of `select` and `store`, which run up to and including it. -/
def lastByte (ElemSize bitSize : ℕ) : ℕ :=
  (bitSize - 1) / ElemSize

/-- `splitBytes` (dynamic): the pieces start at the multiples of `ElemSize` below the width. -/
def splitBytes (ElemSize : ℕ) {width : ℕ} (bv : BitVec width) : List (BitVec ElemSize) :=
  if width ≤ ElemSize then [bv.signExtend ElemSize]
  else (List.range (lastByte ElemSize width + 1)).map fun j =>
    let ix := j * ElemSize
    let hi := min (ix + ElemSize - 1) (width - 1)
    (bv.extractLsb hi ix).signExtend ElemSize

/-- A bit vector with the width it has at run time. -/
abbrev Dyn := (width : ℕ) × BitVec width

/-- `adaptTo`, unsigned. -/
def adaptTo (bv : Dyn) (N : ℕ) : BitVec N :=
  if N > bv.1 then bv.2.zeroExtend N
  else if N < bv.1 then bv.2.extractLsb' 0 N
  else bv.2.setWidth N

/-- `CONCAT` of the bytes, each one above those before it. -/
def concatBytes (bytes : List (BitVec ElemSize)) : Dyn :=
  match bytes with
  | [] => ⟨0, 0⟩
  | head :: bytes => bytes.foldl (fun head byte => ⟨ElemSize + head.1, byte ++ head.2⟩)
      ⟨ElemSize, head⟩

/-- `concatBytesDynamic`. -/
def concatBytesDynamic (bytes : List (BitVec ElemSize)) (bitSize : ℕ) : BitVec bitSize :=
  adaptTo (concatBytes bytes) bitSize

/-- `select`. -/
def select (a : BitVec p → BitVec ElemSize) (i : BitVec p) (elemBitSize : ℕ) :
    BitVec elemBitSize :=
  concatBytesDynamic
    ((List.range (lastByte ElemSize elemBitSize + 1)).map fun j => a (i + BitVec.ofNat p j))
    elemBitSize

/-- `store` of the inner array for a list of entries: the later ones go on top. -/
def storeAll (a : BitVec p → BitVec ElemSize) (entries : List (BitVec p × BitVec ElemSize)) :
    BitVec p → BitVec ElemSize :=
  entries.foldl (fun mem entry => Function.update mem entry.1 entry.2) a

/-- `store`. -/
def store (a : BitVec p → BitVec ElemSize) (i : BitVec p) {width : ℕ} (e : BitVec width) :
    BitVec p → BitVec ElemSize :=
  let bytes := splitBytes ElemSize e
  storeAll a ((List.range (lastByte ElemSize width + 1)).map fun j =>
    (i + BitVec.ofNat p j, bytes.getD j 0))

/-! ## Bits of the bytes -/

theorem div_le_lastByte {k width : ℕ} (hk : k < width) : k / ElemSize ≤ lastByte ElemSize width :=
  Nat.div_le_div_right (by omega)

theorem length_splitBytes (hE : 0 < ElemSize) {width : ℕ} (bv : BitVec width) :
    (splitBytes ElemSize bv).length = lastByte ElemSize width + 1 := by
  unfold splitBytes
  split
  · next hle =>
      have hzero : (width - 1) / ElemSize = 0 := Nat.div_eq_of_lt (by omega)
      rw [lastByte, hzero, List.length_singleton]
  · rw [List.length_map, List.length_range]

/-- Each bit of the value is where `splitBytes` puts it. -/
theorem getLsbD_splitBytes (hE : 0 < ElemSize) {width : ℕ} (bv : BitVec width) {k : ℕ}
    (hk : k < width) :
    ((splitBytes ElemSize bv).getD (k / ElemSize) 0).getLsbD (k % ElemSize) = bv.getLsbD k := by
  have hmod : k % ElemSize < ElemSize := Nat.mod_lt k hE
  unfold splitBytes
  split
  · next hle =>
      have hsmall : k < ElemSize := by omega
      rw [Nat.div_eq_of_lt hsmall, Nat.mod_eq_of_lt hsmall, List.getD_cons_zero,
        BitVec.getLsbD_signExtend, if_pos hk, decide_eq_true hsmall, Bool.true_and]
  · have hlt : k / ElemSize < lastByte ElemSize width + 1 :=
      Nat.lt_succ_of_le (div_le_lastByte hk)
    have hdiv : k / ElemSize * ElemSize + k % ElemSize = k := Nat.div_add_mod' k ElemSize
    have hpiece : k % ElemSize < min (k / ElemSize * ElemSize + ElemSize - 1) (width - 1) -
        k / ElemSize * ElemSize + 1 := by omega
    rw [List.getD_eq_getElem?_getD, List.getElem?_map, List.getElem?_range hlt, Option.map_some,
      Option.getD_some, BitVec.getLsbD_signExtend, if_pos hpiece, BitVec.getLsbD_extractLsb,
      decide_eq_true hmod, decide_eq_true hpiece, Bool.true_and, Bool.true_and, hdiv]

theorem getLsbD_adaptTo (bv : Dyn) {N k : ℕ} (hk : k < N) :
    (adaptTo bv N).getLsbD k = bv.2.getLsbD k := by
  unfold adaptTo
  split
  · rw [BitVec.zeroExtend, BitVec.getLsbD_setWidth, decide_eq_true hk, Bool.true_and]
  · split
    · rw [BitVec.getLsbD_extractLsb', decide_eq_true hk, Bool.true_and, Nat.zero_add]
    · rw [BitVec.getLsbD_setWidth, decide_eq_true hk, Bool.true_and]

/-- One round of the loop of `concatBytesDynamic`. -/
def concatByte (head : Dyn) (byte : BitVec ElemSize) : Dyn :=
  ⟨ElemSize + head.1, byte ++ head.2⟩

theorem getLsbD_concatByte_head (head : Dyn) (byte : BitVec ElemSize) {j : ℕ} (hj : j < head.1) :
    (concatByte head byte).2.getLsbD j = head.2.getLsbD j := by
  change (byte ++ head.2).getLsbD j = _
  rw [BitVec.getLsbD_append, if_pos hj]

theorem getLsbD_concatByte_byte (head : Dyn) (byte : BitVec ElemSize) (j : ℕ) :
    (concatByte head byte).2.getLsbD (head.1 + j) = byte.getLsbD j := by
  change (byte ++ head.2).getLsbD (head.1 + j) = _
  rw [BitVec.getLsbD_append, if_neg (by omega), Nat.add_sub_cancel_left]

/-- The loop keeps the bits of the head. -/
theorem getLsbD_concat_head (bytes : List (BitVec ElemSize)) (head : Dyn) {j : ℕ}
    (hj : j < head.1) : (bytes.foldl concatByte head).2.getLsbD j = head.2.getLsbD j := by
  induction bytes generalizing head with
  | nil => rfl
  | cons byte bytes ih =>
      have hnext : j < (concatByte head byte).1 := hj.trans_le (Nat.le_add_left _ _)
      calc ((byte :: bytes).foldl concatByte head).2.getLsbD j
          = (concatByte head byte).2.getLsbD j := ih (concatByte head byte) hnext
        _ = head.2.getLsbD j := getLsbD_concatByte_head head byte hj

/-- The bits of the bytes follow those of the head. -/
theorem getLsbD_concat_loop (bytes : List (BitVec ElemSize)) (head : Dyn) {k : ℕ}
    (hk : k < bytes.length * ElemSize) :
    (bytes.foldl concatByte head).2.getLsbD (head.1 + k) =
      (bytes.getD (k / ElemSize) 0).getLsbD (k % ElemSize) := by
  induction bytes generalizing head k with
  | nil =>
      rw [List.length_nil, Nat.zero_mul] at hk
      exact absurd hk (Nat.not_lt_zero k)
  | cons byte bytes ih =>
      have hE : 0 < ElemSize := Nat.pos_of_mul_pos_left (Nat.zero_lt_of_lt hk)
      rw [List.foldl_cons]
      rcases Nat.lt_or_ge k ElemSize with hsmall | hlarge
      · have hnext : head.1 + k < (concatByte head byte).1 := by
          change head.1 + k < ElemSize + head.1
          omega
        rw [getLsbD_concat_head bytes _ hnext, getLsbD_concatByte_byte, Nat.div_eq_of_lt hsmall,
          Nat.mod_eq_of_lt hsmall, List.getD_cons_zero]
      · have hrest : k - ElemSize < bytes.length * ElemSize := by
          rw [List.length_cons, Nat.succ_mul] at hk
          omega
        have hindex : (concatByte head byte).1 + (k - ElemSize) = head.1 + k := by
          change ElemSize + head.1 + (k - ElemSize) = head.1 + k
          omega
        have hdiv : k / ElemSize = (k - ElemSize) / ElemSize + 1 := by
          rw [← Nat.add_div_right _ hE, Nat.sub_add_cancel hlarge]
        have hmod : k % ElemSize = (k - ElemSize) % ElemSize := Nat.mod_eq_sub_mod hlarge
        rw [← hindex, ih (concatByte head byte) hrest, hdiv, hmod, List.getD_cons_succ]

theorem getLsbD_concatBytes (bytes : List (BitVec ElemSize)) {k : ℕ}
    (hk : k < bytes.length * ElemSize) :
    (concatBytes bytes).2.getLsbD k = (bytes.getD (k / ElemSize) 0).getLsbD (k % ElemSize) := by
  cases bytes with
  | nil =>
      rw [List.length_nil, Nat.zero_mul] at hk
      exact absurd hk (Nat.not_lt_zero k)
  | cons head bytes =>
      -- the loop that starts with the first byte is the loop over all bytes that starts empty
      have hloop := getLsbD_concat_loop (head :: bytes) ⟨0, 0⟩ hk
      rw [Nat.zero_add] at hloop
      have hsame : concatByte ⟨0, 0⟩ head = ⟨ElemSize, head⟩ := by
        unfold concatByte
        rw [BitVec.append_zero_width]
        rfl
      rw [List.foldl_cons, hsame] at hloop
      exact hloop

/-- Each bit that `select` reads comes from the byte it belongs to. -/
theorem getLsbD_select (hE : 0 < ElemSize) (a : BitVec p → BitVec ElemSize) (i : BitVec p)
    {width k : ℕ} (hk : k < width) :
    (select a i width).getLsbD k =
      (a (i + BitVec.ofNat p (k / ElemSize))).getLsbD (k % ElemSize) := by
  have hlt : k / ElemSize < lastByte ElemSize width + 1 := Nat.lt_succ_of_le (div_le_lastByte hk)
  have hbytes : k < (lastByte ElemSize width + 1) * ElemSize := (Nat.div_lt_iff_lt_mul hE).mp hlt
  unfold select concatBytesDynamic
  rw [getLsbD_adaptTo _ hk, getLsbD_concatBytes _ (by rwa [List.length_map, List.length_range]),
    List.getD_eq_getElem?_getD, List.getElem?_map, List.getElem?_range hlt, Option.map_some,
    Option.getD_some]

/-! ## Addresses -/

/-- The addresses of the bytes of a value. -/
def bytesAt (ElemSize : ℕ) (i : BitVec p) (width : ℕ) : List (BitVec p) :=
  (List.range (lastByte ElemSize width + 1)).map fun j => i + BitVec.ofNat p j

theorem mem_bytesAt {i : BitVec p} {width k : ℕ} (hk : k < width) :
    i + BitVec.ofNat p (k / ElemSize) ∈ bytesAt ElemSize i width :=
  List.mem_map.mpr ⟨k / ElemSize, List.mem_range.mpr (Nat.lt_succ_of_le (div_le_lastByte hk)), rfl⟩

/-- Bytes that are less than the address space apart have different addresses. -/
theorem add_ofNat_inj {i : BitVec p} {j j' : ℕ} (hj : j < 2 ^ p) (hj' : j' < 2 ^ p)
    (h : i + BitVec.ofNat p j = i + BitVec.ofNat p j') : j = j' := by
  have hofNat := congrArg BitVec.toNat (add_left_cancel h)
  rwa [BitVec.toNat_ofNat, BitVec.toNat_ofNat, Nat.mod_eq_of_lt hj, Nat.mod_eq_of_lt hj'] at hofNat

theorem storeAll_of_not_mem (a : BitVec p → BitVec ElemSize)
    {entries : List (BitVec p × BitVec ElemSize)} {k : BitVec p}
    (hk : k ∉ entries.map Prod.fst) : storeAll a entries k = a k := by
  unfold storeAll
  induction entries generalizing a with
  | nil => rfl
  | cons entry entries ih =>
      rw [List.map_cons, List.mem_cons, not_or] at hk
      rw [List.foldl_cons, ih _ hk.2]
      exact Function.update_of_ne hk.1 _ _

theorem storeAll_of_mem (a : BitVec p → BitVec ElemSize)
    {entries : List (BitVec p × BitVec ElemSize)} (hdistinct : (entries.map Prod.fst).Nodup)
    {entry : BitVec p × BitVec ElemSize} (hentry : entry ∈ entries) :
    storeAll a entries entry.1 = entry.2 := by
  unfold storeAll
  induction entries generalizing a with
  | nil => cases hentry
  | cons first entries ih =>
      rw [List.map_cons, List.nodup_cons] at hdistinct
      rw [List.foldl_cons]
      rcases List.mem_cons.mp hentry with rfl | hrest
      · have hkept := storeAll_of_not_mem (Function.update a entry.1 entry.2) hdistinct.1
        rw [Function.update_self] at hkept
        exact hkept
      · exact ih _ hdistinct.2 hrest

theorem map_fst_entries (i : BitVec p) {width : ℕ} (e : BitVec width) :
    (((List.range (lastByte ElemSize width + 1)).map fun j =>
      (i + BitVec.ofNat p j, (splitBytes ElemSize e).getD j 0)).map Prod.fst) =
        bytesAt ElemSize i width := by
  rw [List.map_map]
  rfl

theorem nodup_bytesAt {i : BitVec p} {width : ℕ} (hspan : lastByte ElemSize width < 2 ^ p) :
    (bytesAt ElemSize i width).Nodup := by
  refine List.Nodup.map_on (fun j hj j' hj' h => ?_) List.nodup_range
  have hlt := Nat.lt_of_lt_of_le (List.mem_range.mp hj) hspan
  have hlt' := Nat.lt_of_lt_of_le (List.mem_range.mp hj') hspan
  exact add_ofNat_inj hlt hlt' h

/-- What a store leaves alone. -/
theorem store_of_not_mem (a : BitVec p → BitVec ElemSize) {i : BitVec p} {width : ℕ}
    (e : BitVec width) {k : BitVec p} (hk : k ∉ bytesAt ElemSize i width) :
    store a i e k = a k := by
  refine storeAll_of_not_mem a ?_
  rwa [map_fst_entries]

/-- What a store writes. -/
theorem store_self (a : BitVec p → BitVec ElemSize) (i : BitVec p) {width : ℕ} (e : BitVec width)
    (hspan : lastByte ElemSize width < 2 ^ p) {j : ℕ} (hj : j ≤ lastByte ElemSize width) :
    store a i e (i + BitVec.ofNat p j) = (splitBytes ElemSize e).getD j 0 := by
  have hdistinct : (((List.range (lastByte ElemSize width + 1)).map fun j =>
      (i + BitVec.ofNat p j, (splitBytes ElemSize e).getD j 0)).map Prod.fst).Nodup := by
    rw [map_fst_entries]
    exact nodup_bytesAt hspan
  exact storeAll_of_mem a hdistinct
    (List.mem_map.mpr ⟨j, List.mem_range.mpr (Nat.lt_succ_of_le hj), rfl⟩)

/-- What is stored is read back. -/
theorem select_store_self (hE : 0 < ElemSize) (a : BitVec p → BitVec ElemSize) (i : BitVec p)
    {width : ℕ} (e : BitVec width) (hspan : lastByte ElemSize width < 2 ^ p) :
    select (store a i e) i width = e := by
  refine BitVec.eq_of_getLsbD_eq fun k hk => ?_
  calc (select (store a i e) i width).getLsbD k
      = (store a i e (i + BitVec.ofNat p (k / ElemSize))).getLsbD (k % ElemSize) :=
        getLsbD_select hE _ i hk
    _ = ((splitBytes ElemSize e).getD (k / ElemSize) 0).getLsbD (k % ElemSize) := by
        rw [store_self a i e hspan (div_le_lastByte hk)]
    _ = e.getLsbD k := getLsbD_splitBytes hE e hk

/-- A read is not affected by a store to other bytes. -/
theorem select_store_of_disjoint (hE : 0 < ElemSize) (a : BitVec p → BitVec ElemSize)
    {i k : BitVec p} {width m : ℕ} (e : BitVec width)
    (hdisjoint : ∀ b ∈ bytesAt ElemSize k m, b ∉ bytesAt ElemSize i width) :
    select (store a i e) k m = select a k m := by
  refine BitVec.eq_of_getLsbD_eq fun b hb => ?_
  rw [getLsbD_select hE _ k hb, getLsbD_select hE _ k hb,
    store_of_not_mem a e (hdisjoint _ (mem_bytesAt hb))]

/-- A store is read back whatever the width, and leaves every value in other bytes as it was.  The
widths are those of bit vectors, which have at least one bit. -/
theorem store_roundTrips_and_frames (hE : 0 < ElemSize) (a : BitVec p → BitVec ElemSize)
    (i : BitVec p) {n : ℕ} (_hn : 1 ≤ n) (e : BitVec n) (hspan : lastByte ElemSize n + 1 < 2 ^ p) :
    select (store a i e) i n = e ∧
      ∀ (k : BitVec p) (m : ℕ), 1 ≤ m →
        (∀ b ∈ bytesAt ElemSize k m, b ∉ bytesAt ElemSize i n) →
          select (store a i e) k m = select a k m := by
  refine ⟨select_store_self hE a i e (by omega), ?_⟩
  intro k m _ hdisjoint
  exact select_store_of_disjoint hE a e hdisjoint

/-- A value of 20 bits in memory of bytes, at the highest address, and a read next to it. -/
theorem store_roundTrips_and_frames_wrap :
    select (store (fun _ => 0x55#8) 0xf#4 0xfedcb#20) 0xf#4 20 = 0xfedcb#20 ∧
      select (store (fun _ => 0x55#8) 0xf#4 0xfedcb#20) 2#4 12 =
        select (fun _ => 0x55#8) 2#4 12 := by
  have hboth := store_roundTrips_and_frames (by decide : 0 < 8) (fun _ => 0x55#8) 0xf#4
    (by decide : 1 ≤ 20) 0xfedcb#20 (by decide)
  exact ⟨hboth.1, hboth.2 2#4 12 (by decide) (by decide)⟩

/-! ## The memory of the back end -/

section BackEnd

variable {V : Type}

theorem splitBytes_eq {width : ℕ} (bv : BitVec width) :
    SMT.splitBytes bv = splitBytes 64 bv := by
  unfold SMT.splitBytes splitBytes
  split
  · rfl
  · refine List.map_congr_left fun j _ => ?_
    rw [Nat.mul_comm 64 j]
    rfl

/-- The bits of the number that a list of cells stands for. -/
theorem testBit_concatBytes (bytes : List Byte) {k : ℕ} (hk : k < bytes.length * 64) :
    (SMT.concatBytes bytes).testBit k = (bytes.getD (k / 64) 0).getLsbD (k % 64) := by
  induction bytes generalizing k with
  | nil => exact absurd hk (Nat.not_lt_zero k)
  | cons byte bytes ih =>
      have hcons : SMT.concatBytes (byte :: bytes) =
          2 ^ 64 * SMT.concatBytes bytes + byte.toNat := Nat.add_comm _ _
      rw [hcons, Nat.testBit_two_pow_mul_add _ byte.isLt]
      split
      · next hsmall =>
          rw [Nat.div_eq_of_lt hsmall, Nat.mod_eq_of_lt hsmall, List.getD_cons_zero]
          rfl
      · next hlarge =>
          have hdiv : k / 64 = (k - 64) / 64 + 1 := by omega
          have hmod : k % 64 = (k - 64) % 64 := by omega
          rw [List.length_cons, Nat.succ_mul] at hk
          rw [hdiv, hmod, List.getD_cons_succ]
          exact ih (by omega)

/-- `select` of the memory arrays is `select` at 64 bits. -/
theorem memArray_select (a : MemArray V) (i : Assignment V → Pointer) (elemBitSize : ℕ)
    (ρ : Assignment V) : a.select i elemBitSize ρ = select (a ρ) (i ρ) elemBitSize := by
  refine BitVec.eq_of_getLsbD_eq fun k hk => ?_
  have hlt : k / 64 < cellsOf elemBitSize := Nat.lt_succ_of_le (div_le_lastByte hk)
  rw [getLsbD_select (by decide) _ _ hk]
  unfold MemArray.select
  rw [BitVec.getLsbD_ofNat, decide_eq_true hk, Bool.true_and,
    testBit_concatBytes _ (by rw [List.length_map, List.length_range]; omega),
    List.getD_eq_getElem?_getD, List.getElem?_map, List.getElem?_range hlt, Option.map_some,
    Option.getD_some]

/-- `store` of the memory arrays is `store` at 64 bits. -/
theorem memArray_store (a : MemArray V) (i : Assignment V → Pointer) (e : AnyBitVector V)
    (ρ : Assignment V) : a.store i e ρ = store (a ρ) (i ρ) (e.expr ρ) := by
  have hentries : ((List.range (lastByte 64 e.bitSize + 1)).map fun j =>
      (i ρ + BitVec.ofNat 64 j, (splitBytes 64 (e.expr ρ)).getD j 0)) =
      (splitBytes 64 (e.expr ρ)).zipIdx.map fun cell => (i ρ + BitVec.ofNat 64 cell.2, cell.1) := by
    refine List.ext_getElem (by simp [length_splitBytes]) fun j hj hj' => ?_
    rw [List.length_map, List.length_zipIdx] at hj'
    simp [List.getElem?_eq_getElem hj']
  unfold MemArray.store store storeAll
  dsimp only
  rw [hentries, List.foldl_map, splitBytes_eq]

end BackEnd

end ScatterArray

end SMT

end Borealis
