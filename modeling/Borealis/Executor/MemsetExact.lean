import Borealis.Executor.LoadBytes
import Mathlib.Algebra.Order.Group.Nat

/-!
# A memset and stores of its bytes

`memsetTraverser` fills a node whose state is known as soon as the range lies in it, all of the
node and not only the range, and asserts that a part of a chunk ends before the chunk does.

## Strategy

`writeBytes` is the node after stores of the bytes one by one.  It is computed child by child
(`writeBytes_left`, `writeBytes_right`, `writeBytes_split`), as a memset is, so that the two are
compared by induction on the height.  They agree, and leave the other bytes as they are, if the
memset finds at the end of each walk a node that it may fill (`FillsExactly`).
-/

namespace Borealis

open Lib

/-! ## Stores of one byte -/

/-- The node of height `h` at `lo` after an accepted store of a byte at `x`. -/
def writeByte (c : ℕ) (fill : UInt8) : (h lo x : ℕ) → NodePtr → NodePtr
  | 0, lo, x, t =>
    .node { t.force.1 with
      state := .unknown
      chunk := some ((t.force.1.chunk.getD Chunk.fresh).memcpy (x - lo) [fill]) }
      t.force.2.1 t.force.2.2
  | h + 1, lo, x, t =>
    if x < lo + span c h then
      .node t.force.1.invalidate (writeByte c fill h lo x (t.force.2.1.derive t.force.1))
        (t.force.2.2.derive t.force.1)
    else
      .node t.force.1.invalidate (t.force.2.1.derive t.force.1)
        (writeByte c fill h (lo + span c h) x (t.force.2.2.derive t.force.1))

/-- The node after stores of the bytes `x`, `x + 1` and so on. -/
def writeBytes (c : ℕ) (fill : UInt8) (h lo : ℕ) : (size x : ℕ) → NodePtr → NodePtr
  | 0, _, t => t
  | size + 1, x, t => writeBytes c fill h lo size (x + 1) (writeByte c fill h lo x t)

theorem NodePtr.derive_ne_null (t : NodePtr) (n : SegmentNode) : t.derive n ≠ .null := by
  cases t <;> simp [derive]

theorem NodePtr.derive_of_ne_null {t : NodePtr} (ht : t ≠ .null) (n : SegmentNode) :
    t.derive n = t := by
  cases t with
  | null => exact absurd rfl ht
  | node => rfl

theorem SegmentNode.invalidate_of_unknown {n : SegmentNode} (hn : n.state = .unknown) :
    n.invalidate = n := by
  cases n
  simp_all [invalidate]

section Write

variable {c h lo x size : ℕ} {fill : UInt8} {n : SegmentNode} {l r t : NodePtr}

theorem writeByte_ne_null : writeByte c fill h lo x t ≠ .null := by
  cases h with
  | zero => simp [writeByte]
  | succ h =>
      unfold writeByte
      split <;> simp

/-- A store opens the node first. -/
theorem writeByte_open : writeByte c fill (h + 1) lo x t =
    writeByte c fill (h + 1) lo x (.node t.force.1.invalidate (t.force.2.1.derive t.force.1)
      (t.force.2.2.derive t.force.1)) := by
  simp only [writeByte, NodePtr.force_node, NodePtr.derive_of_ne_null (NodePtr.derive_ne_null _ _)]
  rfl

theorem writeByte_left (hn : n.state = .unknown) (hl : l ≠ .null) (hr : r ≠ .null)
    (hx : x < lo + span c h) :
    writeByte c fill (h + 1) lo x (.node n l r) = .node n (writeByte c fill h lo x l) r := by
  simp only [writeByte, hx, if_true, NodePtr.force_node, NodePtr.derive_of_ne_null hl,
    NodePtr.derive_of_ne_null hr, SegmentNode.invalidate_of_unknown hn]

theorem writeByte_right (hn : n.state = .unknown) (hl : l ≠ .null) (hr : r ≠ .null)
    (hx : lo + span c h ≤ x) :
    writeByte c fill (h + 1) lo x (.node n l r) =
      .node n l (writeByte c fill h (lo + span c h) x r) := by
  simp only [writeByte, Nat.not_lt.mpr hx, if_false, NodePtr.force_node,
    NodePtr.derive_of_ne_null hl, NodePtr.derive_of_ne_null hr,
    SegmentNode.invalidate_of_unknown hn]

theorem writeBytes_ne_null (ht : t ≠ .null) : writeBytes c fill h lo size x t ≠ .null := by
  induction size generalizing x t with
  | zero => exact ht
  | succ size ih => exact ih writeByte_ne_null

theorem writeBytes_open (hpos : 0 < size) : writeBytes c fill (h + 1) lo size x t =
    writeBytes c fill (h + 1) lo size x (.node t.force.1.invalidate
      (t.force.2.1.derive t.force.1) (t.force.2.2.derive t.force.1)) := by
  obtain ⟨size, rfl⟩ := Nat.exists_eq_succ_of_ne_zero hpos.ne'
  simp only [writeBytes]
  rw [writeByte_open]

theorem writeBytes_left (hn : n.state = .unknown) (hl : l ≠ .null) (hr : r ≠ .null)
    (hx : x + size ≤ lo + span c h) :
    writeBytes c fill (h + 1) lo size x (.node n l r) =
      .node n (writeBytes c fill h lo size x l) r := by
  induction size generalizing x l with
  | zero => rfl
  | succ size ih =>
      simp only [writeBytes]
      rw [writeByte_left hn hl hr (by omega), ih writeByte_ne_null (by omega)]

theorem writeBytes_right (hn : n.state = .unknown) (hl : l ≠ .null) (hr : r ≠ .null)
    (hx : lo + span c h ≤ x) :
    writeBytes c fill (h + 1) lo size x (.node n l r) =
      .node n l (writeBytes c fill h (lo + span c h) size x r) := by
  induction size generalizing x r with
  | zero => rfl
  | succ size ih =>
      simp only [writeBytes]
      rw [writeByte_right hn hl hr hx, ih writeByte_ne_null (by omega)]

theorem writeBytes_add (j k : ℕ) : writeBytes c fill h lo (j + k) x t =
    writeBytes c fill h lo k (x + j) (writeBytes c fill h lo j x t) := by
  induction j generalizing x t with
  | zero => simp [writeBytes]
  | succ j ih =>
      have hadd : j + 1 + k = j + k + 1 := by omega
      have hx : x + 1 + j = x + (j + 1) := by omega
      rw [hadd]
      simp only [writeBytes]
      rw [ih, hx]

/-- The bytes before the midpoint go to the left, and the others to the right. -/
theorem writeBytes_split (hn : n.state = .unknown) (hl : l ≠ .null) (hr : r ≠ .null)
    (hlt : x < lo + span c h) (hgt : lo + span c h < x + size) :
    writeBytes c fill (h + 1) lo size x (.node n l r) =
      .node n (writeBytes c fill h lo (lo + span c h - x) x l)
        (writeBytes c fill h (lo + span c h) (size - (lo + span c h - x)) (lo + span c h) r) := by
  have hsize : size = lo + span c h - x + (size - (lo + span c h - x)) := by omega
  have hmid : x + (lo + span c h - x) = lo + span c h := by omega
  conv_lhs => rw [hsize]
  rw [writeBytes_add, writeBytes_left hn hl hr (by omega), hmid,
    writeBytes_right hn (writeBytes_ne_null hl) hr le_rfl]

/-- In a chunk the stores fill a part of the buffer. -/
theorem writeBytes_chunk (hpos : 0 < size) (hlo : lo ≤ x) :
    writeBytes c fill 0 lo size x t =
      .node { t.force.1 with
        state := .unknown
        chunk := some ((t.force.1.chunk.getD Chunk.fresh).memset (x - lo) fill size) }
        t.force.2.1 t.force.2.2 := by
  obtain ⟨size, rfl⟩ := Nat.exists_eq_succ_of_ne_zero hpos.ne'
  induction size generalizing x t with
  | zero =>
      have hbuffer : ∀ b : Chunk, b.memcpy (x - lo) [fill] = b.memset (x - lo) fill 1 := by
        intro b
        funext i
        simp only [Chunk.memcpy, Chunk.memset, List.length_singleton]
        split
        · have hi : i - (x - lo) = 0 := by omega
          rw [hi]
          rfl
        · rfl
      simp only [writeBytes, writeByte, hbuffer, Nat.succ_eq_add_one, Nat.zero_add]
  | succ size ih =>
      have hbuffer : ∀ b : Chunk, (b.memcpy (x - lo) [fill]).memset (x + 1 - lo) fill (size + 1) =
          b.memset (x - lo) fill (size + 1 + 1) := by
        intro b
        funext i
        simp only [Chunk.memcpy, Chunk.memset, List.length_singleton]
        by_cases hfirst : i = x - lo
        · subst hfirst
          simp
        · have hiff : (x + 1 - lo ≤ i ∧ i < x + 1 - lo + (size + 1)) ↔
              (x - lo ≤ i ∧ i < x - lo + (size + 1 + 1)) := by omega
          have hnot : ¬ (x - lo ≤ i ∧ i < x - lo + 1) := by omega
          simp only [hiff, hnot, if_false]
      rw [writeBytes, ih (by omega) (by omega)]
      simp only [writeByte, NodePtr.force_node, Option.getD_some, Nat.succ_eq_add_one, hbuffer]

/-- An accepted store of one byte. -/
theorem StoreWalk.writeByte_eq {s : StoreState} {t' : NodePtr} {result : Except Fault Unit}
    (hw : StoreWalk c h lo x s t result t') (hdata : s.data = [fill]) (hok : result = .ok ())
    (hwrap : x + 1 < 2 ^ 64) : t' = writeByte c fill h lo x t := by
  have hadd : ptrAdd x 1 = x + 1 := ptrAdd_of_lt hwrap
  induction hw with
  | outside => cases hok
  | reject => cases hok
  | tooLong => cases hok
  | unallocated => cases hok
  | write _ hcheck =>
      rw [checkAllocation_data hcheck, hdata]
      rfl
  | splitFail => cases hok
  | split _ hcheck hlt hgt =>
      rw [checkAllocation_data hcheck, hdata, List.length_singleton, hadd] at hgt
      omega
  | left haddr hcheck _ _ ih =>
      rw [writeByte, if_pos haddr.2,
        ih ((checkAllocation_data hcheck).trans hdata) hok hwrap hadd]
  | right haddr hcheck _ ih =>
      rw [writeByte, if_neg (Nat.not_lt.mpr haddr.1),
        ih ((checkAllocation_data hcheck).trans hdata) hok hwrap hadd]

end Write

/-! ## The bytes of a node -/

/-- What a load of the byte `a` finds in the node, or why it fails. -/
def peekByte (c h lo : ℕ) (t : NodePtr) (a : ℕ) : Except Fault (Option (Option UInt8)) :=
  (peek c h lo t a).map IntervalState.byte

/-- The byte itself, if a load finds one. -/
def knownByte : Except Fault (Option (Option UInt8)) → Option UInt8
  | .ok (some (some b)) => some b
  | _ => none

theorem knownByte_some (b : Option UInt8) : knownByte (.ok (some b)) = b := by
  cases b <;> rfl

/-- All bytes of the node were set to `fill`, and it has no children. -/
def NodePtr.Uniform (fill : UInt8) (t : NodePtr) : Prop :=
  ∃ n : SegmentNode, t = .node n .null .null ∧ n.state = .memset ∧ n.memSetTo = fill

section Bytes

variable {c h lo x size a : ℕ} {fill : UInt8} {n : SegmentNode} {l r t : NodePtr}

theorem peekByte_left (hn : n.state = .unknown) (ha : a < lo + span c h) :
    peekByte c (h + 1) lo (.node n l r) a = peekByte c h lo l a := by
  simp only [peekByte, peek_left hn ha]

theorem peekByte_right (hn : n.state = .unknown) (ha : lo + span c h ≤ a) :
    peekByte c (h + 1) lo (.node n l r) a = peekByte c h (lo + span c h) r a := by
  simp only [peekByte, peek_right hn ha]

theorem peekByte_memset (hn : n.state = .memset) (hfill : n.memSetTo = fill) :
    peekByte c h lo (.node n l r) a = .ok (some (some fill)) := by
  simp only [peekByte, peek_known (show n.state ≠ .unknown by simp [hn]), hn, hfill]
  rfl

theorem peekByte_buffer {b : Chunk} (hn : n.state = .unknown) (hb : n.chunk = some b) :
    peekByte c 0 lo (.node n l r) a = .ok (some (b (a - lo))) := by
  simp only [peekByte, peek_chunk hn, hb]
  rfl

/-- A node without a state and without children knows no byte. -/
theorem known_bare (hn : n.state = .unknown) (hchunk : n.chunk = none) :
    knownByte (peekByte c h lo (.node n .null .null) a) = none := by
  cases h with
  | zero =>
      simp only [peekByte, peek_chunk hn, hchunk]
      rfl
  | succ h =>
      rcases Nat.lt_or_ge a (lo + span c h) with ha | ha
      · simp only [peekByte, peek_left hn ha, peek_null]
        rfl
      · simp only [peekByte, peek_right hn ha, peek_null]
        rfl

theorem known_derive (hn : n.state = .unknown) :
    knownByte (peekByte c h lo (t.derive n) a) = knownByte (peekByte c h lo t a) := by
  cases t with
  | null =>
      rw [NodePtr.derive, known_bare (n := { state := n.state, memSetTo := n.memSetTo }) hn rfl,
        peekByte, peek_null]
      rfl
  | node => rfl

/-- A node without a state leaves a byte to its children. -/
theorem known_left (hn : t.force.1.state = .unknown) (ha : a < lo + span c h) :
    knownByte (peekByte c h lo (t.force.2.1.derive t.force.1) a) =
      knownByte (peekByte c (h + 1) lo t a) := by
  rw [known_derive hn]
  cases t with
  | null => simp only [peekByte, NodePtr.force, peek_null]
  | node n l r =>
      simp only [NodePtr.force_node] at hn ⊢
      rw [peekByte_left hn ha]

theorem known_right (hn : t.force.1.state = .unknown) (ha : lo + span c h ≤ a) :
    knownByte (peekByte c h (lo + span c h) (t.force.2.2.derive t.force.1) a) =
      knownByte (peekByte c (h + 1) lo t a) := by
  rw [known_derive hn]
  cases t with
  | null => simp only [peekByte, NodePtr.force, peek_null]
  | node n l r =>
      simp only [NodePtr.force_node] at hn ⊢
      rw [peekByte_right hn ha]

/-- The stored bytes are found. -/
theorem peekByte_writeBytes (hlo : lo ≤ x) (hhi : x + size ≤ lo + span c h) (hx : x ≤ a)
    (ha : a < x + size) :
    peekByte c h lo (writeBytes c fill h lo size x t) a = .ok (some (some fill)) := by
  induction h generalizing lo x size t with
  | zero =>
      rw [writeBytes_chunk (by omega) hlo, peekByte_buffer rfl rfl]
      have hin : x - lo ≤ a - lo ∧ a - lo < x - lo + size := by omega
      simp only [Chunk.memset, hin, and_self, if_true]
  | succ h ih =>
      rw [span_succ] at hhi
      have hl := t.force.2.1.derive_ne_null t.force.1
      have hr := t.force.2.2.derive_ne_null t.force.1
      rw [writeBytes_open (by omega)]
      rcases Nat.lt_or_ge (lo + span c h) (x + size) with hgt | hle
      · rcases Nat.lt_or_ge x (lo + span c h) with hlt | hge
        · rw [writeBytes_split rfl hl hr hlt hgt]
          rcases Nat.lt_or_ge a (lo + span c h) with ha' | ha'
          · rw [peekByte_left rfl ha']
            exact ih hlo (by omega) hx (by omega)
          · rw [peekByte_right rfl ha']
            exact ih le_rfl (by omega) ha' (by omega)
        · rw [writeBytes_right rfl hl hr hge, peekByte_right rfl (by omega)]
          exact ih hge (by omega) hx ha
      · rw [writeBytes_left rfl hl hr hle, peekByte_left rfl (by omega)]
        exact ih hlo hle hx ha

/-- Stores of whole chunks of a node that was set to the same byte. -/
theorem peekByte_writeBytes_uniform (ht : t.Uniform fill) (hpos : 0 < size) (hlo : lo ≤ x)
    (hhi : x + size ≤ lo + span c h) (hx : c ∣ x - lo) (hsize : c ∣ size) (hlo' : lo ≤ a)
    (hhi' : a < lo + span c h) :
    peekByte c h lo (writeBytes c fill h lo size x t) a = .ok (some (some fill)) := by
  induction h generalizing lo x size t with
  | zero =>
      rw [span_zero] at hhi hhi'
      have hle := Nat.le_of_dvd hpos hsize
      exact peekByte_writeBytes hlo (by rwa [span_zero]) (by omega) (by omega)
  | succ h ih =>
      rw [span_succ] at hhi hhi'
      obtain ⟨n, rfl, hn, hfill⟩ := ht
      have hl := NodePtr.derive_ne_null .null n
      have hbelow : (NodePtr.null.derive n).Uniform fill := ⟨_, rfl, hn, hfill⟩
      have hother : ∀ lo, peekByte c h lo (NodePtr.null.derive n) a = .ok (some (some fill)) :=
        fun lo => peekByte_memset hn hfill
      have hspan : c ∣ span c h := by
        have hdvd := span_dvd_span c (Nat.zero_le h)
        rwa [span_zero] at hdvd
      rw [writeBytes_open hpos]
      simp only [NodePtr.force_node]
      rcases Nat.lt_or_ge (lo + span c h) (x + size) with hgt | hle
      · rcases Nat.lt_or_ge x (lo + span c h) with hlt | hge
        · have hfirst : c ∣ lo + span c h - x := by
            have hsub := Nat.dvd_sub hspan hx
            rwa [show span c h - (x - lo) = lo + span c h - x by omega] at hsub
          rw [writeBytes_split rfl hl hl hlt hgt]
          rcases Nat.lt_or_ge a (lo + span c h) with ha' | ha'
          · rw [peekByte_left rfl ha']
            exact ih hbelow (by omega) hlo (by omega) hx hfirst hlo' ha'
          · rw [peekByte_right rfl ha']
            exact ih hbelow (by omega) le_rfl (by omega) (by simp) (Nat.dvd_sub hsize hfirst) ha'
              (by omega)
        · have hx' : c ∣ x - (lo + span c h) := by
            have hsub := Nat.dvd_sub hx hspan
            rwa [show x - lo - span c h = x - (lo + span c h) by omega] at hsub
          rw [writeBytes_right rfl hl hl hge]
          rcases Nat.lt_or_ge a (lo + span c h) with ha' | ha'
          · rw [peekByte_left rfl ha', hother]
          · rw [peekByte_right rfl ha']
            exact ih hbelow hpos hge (by omega) hx' hsize ha' (by omega)
      · rw [writeBytes_left rfl hl hl hle]
        rcases Nat.lt_or_ge a (lo + span c h) with ha' | ha'
        · rw [peekByte_left rfl ha']
          exact ih hbelow hpos hlo hle hx hsize hlo' ha'
        · rw [peekByte_right rfl ha', hother]

end Bytes

/-! ## The memset -/

/-- The state of a chunk says nothing that its buffer, or a new one, leaves out: it is not known, or
the chunk is uninitialized and has no buffer. -/
def SegmentNode.Bare (n : SegmentNode) : Prop :=
  n.state = .unknown ∨ (n.state = .uninit ∧ n.chunk = none)

/-- A memset of `size` bytes at `addr` fills in the node no more than its range, and does not end a
part of a chunk where the chunk ends: a node with a known state above the chunks is filled as a
whole, or was set to the same byte and the range consists of whole chunks; a chunk is filled as a
whole, or its state says nothing that is lost and the range ends before the chunk does. -/
def FillsExactly (c : ℕ) (fill : UInt8) : (h lo addr size : ℕ) → NodePtr → Prop
  | 0, lo, addr, size, t => size = c ∨ (addr + size < lo + c ∧ t.force.1.Bare)
  | h + 1, lo, addr, size, t =>
    if t.force.1.state ≠ .unknown then
      (addr = lo ∧ size = span c (h + 1)) ∨ (t.Uniform fill ∧ c ∣ addr - lo ∧ c ∣ size)
    else if addr + size ≤ lo + span c h then
      FillsExactly c fill h lo addr size (t.force.2.1.derive t.force.1)
    else if lo + span c h ≤ addr then
      FillsExactly c fill h (lo + span c h) addr size (t.force.2.2.derive t.force.1)
    else
      FillsExactly c fill h lo addr (lo + span c h - addr) (t.force.2.1.derive t.force.1) ∧
        FillsExactly c fill h (lo + span c h) (lo + span c h) (size - (lo + span c h - addr))
          (t.force.2.2.derive t.force.1)

/-- A memset returned the node `t'`, which has the bytes of the node after stores of the bytes, and
the bytes that `t` had outside of the range. -/
structure Fills (c : ℕ) (fill : UInt8) (h lo addr size : ℕ) (t : NodePtr)
    (result : Visited MemsetState) : Prop where
  ok : ∃ v, result.1 = .ok v
  eq_stores : ∀ a, lo ≤ a → a < lo + span c h →
    peekByte c h lo result.2 a = peekByte c h lo (writeBytes c fill h lo size addr t) a
  frame : ∀ a, lo ≤ a → a < lo + span c h → ¬ (addr ≤ a ∧ a < addr + size) →
    knownByte (peekByte c h lo result.2 a) = knownByte (peekByte c h lo t a)

section Memset

variable {c h lo addr size : ℕ} {fill : UInt8} {t : NodePtr}

/-- The bytes of a chunk that are known are those of its buffer. -/
theorem known_chunk {a : ℕ} (hbare : t.force.1.Bare) :
    knownByte (peekByte c 0 lo t a) = t.force.1.chunk.getD Chunk.fresh (a - lo) := by
  cases t with
  | null =>
      rw [peekByte, peek_null]
      rfl
  | node n l r =>
      have hbare : n.Bare := hbare
      rcases hbare with hstate | ⟨hstate, hchunk⟩
      · rw [peekByte, peek_chunk hstate, NodePtr.force_node]
        cases n.chunk with
        | none => rfl
        | some b => exact knownByte_some (b (a - lo))
      · have hknown : n.state ≠ .unknown := by
          rw [hstate]
          decide
        rw [peekByte, peek_known hknown, hstate, NodePtr.force_node, hchunk]
        rfl

theorem fills_chunk (hin : InNode c 0 lo addr size) (hpos : 0 < size)
    (hexact : FillsExactly c fill 0 lo addr size t) :
    Fills c fill 0 lo addr size t (descend (memsetTraverser fill) c 0 lo ⟨addr, size⟩ addr t) := by
  have hlo := hin.lo_le
  have hhi := hin.le_hi
  have hmem := hin.mem
  rw [span_zero] at hhi hmem
  rw [descend_chunk hmem (memsetTraverser_checkEmpty fill addr t)]
  rcases hexact with rfl | ⟨hend, hbare⟩
  · simp only [memsetTraverser, if_true]
    refine ⟨⟨_, rfl⟩, fun a ha ha' => ?_, fun a ha ha' hout => ?_⟩
    · rw [span_zero] at ha'
      rw [peekByte_memset rfl rfl,
        peekByte_writeBytes hlo (by rwa [span_zero]) (by omega) (by omega)]
    · rw [span_zero] at ha'
      omega
  · have hne : ¬ size = c := by omega
    have hle : size ≤ c := by omega
    have hadd : ptrAdd addr size = addr + size := hin.ptrAdd_eq
    simp only [memsetTraverser, hne, hle, hadd, hend, if_true, if_false, not_true]
    refine ⟨⟨_, rfl⟩, fun a ha ha' => ?_, fun a ha ha' hout => ?_⟩
    · rw [writeBytes_chunk hpos hlo]
    · have hnot : ¬ (addr - lo ≤ a - lo ∧ a - lo < addr - lo + size) := by omega
      -- the buffer keeps what it had, and a new buffer has nothing
      rw [peekByte_buffer rfl rfl, known_chunk hbare]
      simp only [Chunk.memset, hnot, if_false]
      exact knownByte_some _

/-- The shortcut of a node whose state is known. -/
theorem fills_known (hin : InNode c (h + 1) lo addr size) (hpos : 0 < size)
    (hstate : t.force.1.state ≠ .unknown)
    (hexact : (addr = lo ∧ size = span c (h + 1)) ∨ (t.Uniform fill ∧ c ∣ addr - lo ∧ c ∣ size)) :
    Fills c fill (h + 1) lo addr size t
      (descend (memsetTraverser fill) c (h + 1) lo ⟨addr, size⟩ addr t) := by
  have hlazy : t.force.1.state ≠ .unknown ∧ lo ≤ addr ∧
      ptrAdd addr size ≤ lo + span c (h + 1) :=
    ⟨hstate, hin.lo_le, hin.ptrAdd_eq ▸ hin.le_hi⟩
  rw [descend_done hin.mem (memsetTraverser_checkEmpty fill addr t)
    (memset_handlePath_lazy (s := ⟨addr, size⟩) hlazy)]
  refine ⟨⟨_, rfl⟩, fun a ha ha' => ?_, fun a ha ha' hout => ?_⟩
  · rw [peekByte_memset rfl rfl]
    rcases hexact with ⟨rfl, rfl⟩ | ⟨huniform, haddr, hsize⟩
    · rw [peekByte_writeBytes le_rfl le_rfl ha ha']
    · rw [peekByte_writeBytes_uniform huniform hpos hin.lo_le hin.le_hi haddr hsize ha ha']
  · rw [peekByte_memset rfl rfl]
    rcases hexact with ⟨rfl, rfl⟩ | ⟨⟨n, rfl, hn, hfill⟩, -⟩
    · omega
    · rw [peekByte_memset hn hfill]

theorem Fills.left {result : Visited MemsetState} (hn : t.force.1.state = .unknown)
    (hpos : 0 < size) (hle : addr + size ≤ lo + span c h)
    (hf : Fills c fill h lo addr size (t.force.2.1.derive t.force.1) result) :
    Fills c fill (h + 1) lo addr size t
      (result.1, .node t.force.1.invalidate result.2 (t.force.2.2.derive t.force.1)) := by
  have hl := t.force.2.1.derive_ne_null t.force.1
  have hr := t.force.2.2.derive_ne_null t.force.1
  refine ⟨hf.ok, fun a hlo hhi => ?_, fun a hlo hhi hout => ?_⟩
  · rw [writeBytes_open hpos, writeBytes_left rfl hl hr hle]
    rcases Nat.lt_or_ge a (lo + span c h) with ha | ha
    · rw [peekByte_left rfl ha, peekByte_left rfl ha, hf.eq_stores a hlo ha]
    · rw [peekByte_right rfl ha, peekByte_right rfl ha]
  · rcases Nat.lt_or_ge a (lo + span c h) with ha | ha
    · rw [peekByte_left rfl ha, hf.frame a hlo ha hout, known_left hn ha]
    · rw [peekByte_right rfl ha, known_right hn ha]

theorem Fills.right {result : Visited MemsetState} (hn : t.force.1.state = .unknown)
    (hpos : 0 < size) (hge : lo + span c h ≤ addr)
    (hf : Fills c fill h (lo + span c h) addr size (t.force.2.2.derive t.force.1) result) :
    Fills c fill (h + 1) lo addr size t
      (result.1, .node t.force.1.invalidate (t.force.2.1.derive t.force.1) result.2) := by
  have hl := t.force.2.1.derive_ne_null t.force.1
  have hr := t.force.2.2.derive_ne_null t.force.1
  refine ⟨hf.ok, fun a hlo hhi => ?_, fun a hlo hhi hout => ?_⟩
  · rw [span_succ] at hhi
    rw [writeBytes_open hpos, writeBytes_right rfl hl hr hge]
    rcases Nat.lt_or_ge a (lo + span c h) with ha | ha
    · rw [peekByte_left rfl ha, peekByte_left rfl ha]
    · rw [peekByte_right rfl ha, peekByte_right rfl ha, hf.eq_stores a ha (by omega)]
  · rw [span_succ] at hhi
    rcases Nat.lt_or_ge a (lo + span c h) with ha | ha
    · rw [peekByte_left rfl ha, known_left hn ha]
    · rw [peekByte_right rfl ha, hf.frame a ha (by omega) hout, known_right hn ha]

theorem Fills.split {left right : Visited MemsetState} {v : MemsetState}
    (hn : t.force.1.state = .unknown) (hlt : addr < lo + span c h)
    (hgt : lo + span c h < addr + size)
    (hleft : Fills c fill h lo addr (lo + span c h - addr) (t.force.2.1.derive t.force.1) left)
    (hright : Fills c fill h (lo + span c h) (lo + span c h) (size - (lo + span c h - addr))
      (t.force.2.2.derive t.force.1) right) :
    Fills c fill (h + 1) lo addr size t
      (right.1.map fun _ => v, .node t.force.1.invalidate left.2 right.2) := by
  have hl := t.force.2.1.derive_ne_null t.force.1
  have hr := t.force.2.2.derive_ne_null t.force.1
  refine ⟨?_, fun a hlo hhi => ?_, fun a hlo hhi hout => ?_⟩
  · obtain ⟨w, hw⟩ := hright.ok
    exact ⟨v, by rw [hw]; rfl⟩
  · rw [span_succ] at hhi
    rw [writeBytes_open (by omega), writeBytes_split rfl hl hr hlt hgt]
    rcases Nat.lt_or_ge a (lo + span c h) with ha | ha
    · rw [peekByte_left rfl ha, peekByte_left rfl ha, hleft.eq_stores a hlo ha]
    · rw [peekByte_right rfl ha, peekByte_right rfl ha, hright.eq_stores a ha (by omega)]
  · rw [span_succ] at hhi
    rcases Nat.lt_or_ge a (lo + span c h) with ha | ha
    · rw [peekByte_left rfl ha, hleft.frame a hlo ha (by omega), known_left hn ha]
    · rw [peekByte_right rfl ha, hright.frame a ha (by omega) (by omega), known_right hn ha]

/-- **A memset fills a node as stores of its bytes do.** -/
theorem fills_descend (hin : InNode c h lo addr size) (hpos : 0 < size)
    (hexact : FillsExactly c fill h lo addr size t) :
    Fills c fill h lo addr size t (descend (memsetTraverser fill) c h lo ⟨addr, size⟩ addr t) := by
  induction h generalizing lo addr size t with
  | zero => exact fills_chunk hin hpos hexact
  | succ h ih =>
      unfold FillsExactly at hexact
      split at hexact
      · next hstate => exact fills_known hin hpos hstate hexact
      next hstate =>
      have hn : t.force.1.state = .unknown := not_not.mp hstate
      have hempty := memsetTraverser_checkEmpty fill addr t
      have hlazy : ¬ (t.force.1.state ≠ .unknown ∧ lo ≤ addr ∧
          ptrAdd addr size ≤ lo + span c (h + 1)) := fun hlazy => hstate hlazy.1
      have hmem := hin.mem
      have hadd := hin.ptrAdd_eq
      split at hexact
      · next hle =>
          have hlt : addr < lo + span c h := by omega
          have hsplit : ¬ (addr < lo + span c h ∧ lo + span c h < ptrAdd addr size) := by omega
          rw [descend_left ⟨hmem.1, hlt⟩ hempty
            (memset_handlePath_descend (s := ⟨addr, size⟩) hlazy hsplit)]
          exact (ih (hin.left hlt hle) hpos hexact).left hn hpos hle
      next hgt =>
      split at hexact
      · next hge =>
          have hsplit : ¬ (addr < lo + span c h ∧ lo + span c h < ptrAdd addr size) := by omega
          rw [span_succ] at hmem
          rw [descend_right ⟨hge, by omega⟩ hempty
            (memset_handlePath_descend (s := ⟨addr, size⟩) hlazy hsplit)]
          exact (ih (hin.right hge) hpos hexact).right hn hpos hge
      · next hlt =>
          have hlt : addr < lo + span c h := Nat.lt_of_not_le hlt
          have hgt : lo + span c h < addr + size := Nat.lt_of_not_le hgt
          have hsplit : addr < lo + span c h ∧ lo + span c h < ptrAdd addr size := by omega
          have hleft := ih (hin.splitLeft hlt) (by omega) hexact.1
          have hright := ih (hin.splitRight hlt hgt) (by omega) hexact.2
          obtain ⟨v, hv⟩ := hleft.ok
          have hdest : ptrAdd addr (lo + span c h - addr) = lo + span c h := by
            have hmax := hin.hi_lt
            rw [span_succ] at hmax
            rw [ptrAdd_of_lt (by omega)]
            omega
          rw [descend_done hmem hempty (memset_handlePath_split (s := ⟨addr, size⟩) hlazy hsplit
            (Prod.ext hv rfl) (by rw [hdest]))]
          exact hleft.split hn hlt hgt hright

end Memset

/-! ## Sessions -/

namespace Session

/-- `size` successive stores of the byte `fill`, from `addr` on. -/
def storeBytes (fill : UInt8) : (size addr : ℕ) → Session → Except Fault Unit × Session
  | 0, _, s => (.ok (), s)
  | size + 1, addr, s =>
    match s.perform (.store addr [fill]) with
    | (.error e, s') => (.error e, s')
    | (.ok _, s') => storeBytes fill size (addr + 1) s'

/-- A memset fills its range as stores of the bytes do: it returns, all loads find the same bytes
afterwards, those of the range are `fill`, and the others have not changed. -/
structure MemsetExact (s : Session) (fill : UInt8) (addr size : ℕ) : Prop where
  ok : (s.perform (.memset addr fill size)).1 = .ok ()
  stores_ok : (s.storeBytes fill size addr).1 = .ok ()
  eq_stores : ∀ a, ((s.perform (.memset addr fill size)).2.get a).map IntervalState.byte =
    ((s.storeBytes fill size addr).2.get a).map IntervalState.byte
  filled : ∀ a, addr ≤ a → a < addr + size →
    ((s.perform (.memset addr fill size)).2.get a).map IntervalState.byte = .ok (some (some fill))
  frame : ∀ a, ¬ (addr ≤ a ∧ a < addr + size) →
    knownByte (((s.perform (.memset addr fill size)).2.get a).map IntervalState.byte) =
      knownByte ((s.get a).map IntervalState.byte)

end Session

section Session

variable {L : Layout} {s : Session} {fill : UInt8} {addr size : ℕ}

theorem Session.InBlocks.mem (h : s.Tracked L) (hblocks : s.InBlocks addr size) (hpos : 0 < size) :
    Layout.start ≤ addr ∧ addr + size ≤ L.stop := by
  obtain ⟨A, hA, hfirst⟩ := hblocks addr le_rfl (by omega)
  obtain ⟨B, hB, hlast⟩ := hblocks (addr + (size - 1)) (by omega) (by omega)
  obtain ⟨⟨k, hlevel, -, hnode⟩, -⟩ := h.block A hA
  obtain ⟨⟨k', hlevel', -, hnode'⟩, -⟩ := h.block B hB
  have hbase := hnode.le_base
  have hend : B.base + span L.chunkSize k' ≤ L.stop := hnode'.end_le
  have hamount := hlevel'.le
  exact ⟨hbase.trans hfirst.1, by have := hlast.2; omega⟩

/-- The stores of the bytes of live blocks are accepted. -/
theorem Session.storeBytes_eq (h : s.Tracked L) (hblocks : s.InBlocks addr size) :
    (s.storeBytes fill size addr).1 = .ok () ∧ (s.storeBytes fill size addr).2.Tracked L ∧
      (s.storeBytes fill size addr).2.root =
        writeBytes L.chunkSize fill L.power Layout.start size addr s.root := by
  induction size generalizing s addr with
  | zero => exact ⟨rfl, h, rfl⟩
  | succ size ih =>
      have hone : s.InBlocks addr [fill].length := fun a ha ha' =>
        hblocks a ha (by rw [List.length_singleton] at ha'; omega)
      obtain ⟨hlo, hhi⟩ := hblocks.mem h (by omega)
      have hok : (s.perform (.store addr [fill])).1 = .ok () :=
        (h.store_acceptedIf (by simp) hlo (by simp; omega)).ok_iff.mpr hone
      have hlive := Session.store_live (s := s) addr [fill]
      have hstep := h.step (Session.placed_of_request_none rfl) (Session.step_of_ok hok)
      have hroot : (s.perform (.store addr [fill])).2.root =
          writeByte L.chunkSize fill L.power Layout.start addr s.root :=
        (Session.storeWalk h.layout addr [fill]).writeByte_eq rfl hok (by have := L.stop_lt; omega)
      cases hperform : s.perform (.store addr [fill]) with
      | mk result s' =>
          rw [hperform] at hok hlive hstep hroot
          obtain rfl : result = .ok () := hok
          simp only [storeBytes, hperform, writeBytes]
          rw [← hroot]
          refine ih hstep fun a ha ha' => ?_
          obtain ⟨A, hA, hcontains⟩ := hblocks a (by omega) (by omega)
          exact ⟨A, hlive ▸ hA, hcontains⟩

/-- A load of a byte in the tree. -/
theorem Session.get_map_byte (hs : s.sim.HasLayout L) {a : ℕ} (hlo : Layout.start ≤ a)
    (hhi : a < L.stop) : (s.get a).map IntervalState.byte =
      peekByte L.chunkSize L.power Layout.start s.root a := by
  rw [Session.get_eq hs hlo hhi, peekByte]

/-- Memories that know the same bytes in the tree know the same bytes. -/
theorem Session.known_congr (hs : s.sim.HasLayout L) {s' : Session} (hs' : s'.sim.HasLayout L)
    {a : ℕ} (hroot : Layout.start ≤ a → a < L.stop →
      knownByte (peekByte L.chunkSize L.power Layout.start s'.root a) =
        knownByte (peekByte L.chunkSize L.power Layout.start s.root a)) :
    knownByte ((s'.get a).map IntervalState.byte) =
      knownByte ((s.get a).map IntervalState.byte) := by
  by_cases ha : Layout.start ≤ a ∧ a < L.stop
  · rw [Session.get_map_byte hs' ha.1 ha.2, Session.get_map_byte hs ha.1 ha.2]
    exact hroot ha.1 ha.2
  · rw [Session.get_outside hs' ha, Session.get_outside hs ha]

theorem Session.memset_hasLayout (hs : s.sim.HasLayout L) :
    (s.perform (.memset addr fill size)).2.sim.HasLayout L := by
  obtain ⟨⟨tree, hsim⟩, -⟩ := @Session.perform_frame s (.memset addr fill size) rfl
  exact hsim ▸ hs.with_root tree _ _

/-- **A memset fills its range** as stores of its bytes do, in every state that a run of fresh
requests reaches, if the nodes at which its walks end may be filled. -/
theorem memset_exact (L : Layout) {s : Session}
    (hrun : Reachable Session.step (Session.Fresh L) (Session.init L) s) (fill : UInt8)
    {addr size : ℕ} (hpos : 0 < size) (hblock : s.InOneBlock addr size)
    (hexact : FillsExactly L.chunkSize fill L.power Layout.start addr size s.root) :
    s.MemsetExact fill addr size := by
  have h := Session.tracked_of_reachable hrun
  obtain ⟨hlo, hhi⟩ := hblock.inBlocks.mem h hpos
  have hin : InNode L.chunkSize L.power Layout.start addr size :=
    ⟨hlo, show addr < L.stop by omega, hhi, L.stop_lt⟩
  obtain ⟨hstores, htracked, hroot⟩ := @Session.storeBytes_eq _ _ fill _ _ h hblock.inBlocks
  have hlayout : (s.perform (.memset addr fill size)).2.sim.HasLayout L :=
    Session.memset_hasLayout h.layout
  obtain ⟨hperform, hroot'⟩ := Session.perform_memset h.layout
    (show ¬ (addr < Layout.start ∨ L.stop ≤ addr) by omega) fill size
  have hfills := fills_descend hin hpos hexact
  refine ⟨?_, hstores, fun a => ?_, fun a ha ha' => ?_, fun a hout => ?_⟩
  · obtain ⟨v, hv⟩ := hfills.ok
    rw [hperform, hv]
    rfl
  · by_cases ha : Layout.start ≤ a ∧ a < L.stop
    · rw [Session.get_map_byte hlayout ha.1 ha.2, Session.get_map_byte htracked.layout ha.1 ha.2,
        hroot, hroot', hfills.eq_stores a ha.1 ha.2]
    · rw [Session.get_outside hlayout ha, Session.get_outside htracked.layout ha]
  · have hlo' : Layout.start ≤ a := by omega
    have hhi' : a < L.stop := by omega
    rw [Session.get_map_byte hlayout hlo' hhi', hroot', hfills.eq_stores a hlo' hhi',
      peekByte_writeBytes hlo hhi ha ha']
  · apply Session.known_congr h.layout hlayout
    intro ha ha'
    rw [hroot', hfills.frame a ha ha' hout]

end Session

/-- Sixteen zeroed bytes of heap, all of which are set to one. -/
theorem memset_exact_eightChunks :
    ((Session.init eightChunks).perform (.mallocMemory 16 .zero)).2.MemsetExact 1
      (2 ^ 20 + 32) 16 := by
  have hfresh : (Session.init eightChunks).Fresh eightChunks (.mallocMemory 16 .zero) :=
    Session.placed_of_room rfl (show _ = Except.ok 16 from rfl) (by decide) (by decide)
  have hrun := Session.reachable_perform Reachable.init (.mallocMemory 16 .zero) hfresh rfl
  have hblock : ((Session.init eightChunks).perform (.mallocMemory 16 .zero)).2.InOneBlock
      (2 ^ 20 + 32) 16 := by
    refine ⟨⟨2 ^ 20 + 32, 16, 16, .malloc, .memset⟩, by decide, fun a ha ha' => ?_⟩
    simp only [Allocation.Contains]
    omega
  exact memset_exact eightChunks hrun 1 (by decide) hblock (Or.inl ⟨rfl, rfl⟩)

/-- A memset of the first eight of sixteen zeroed bytes of heap sets all sixteen. -/
theorem memset_not_exact :
    ¬ ∀ (L : Layout) (s : Session),
      Reachable Session.step (Session.Fresh L) (Session.init L) s →
      ∀ (fill : UInt8) (addr size : ℕ), 0 < size → s.InOneBlock addr size →
        s.MemsetExact fill addr size := by
  intro hclaim
  have hfresh : (Session.init eightChunks).Fresh eightChunks (.mallocMemory 16 .zero) :=
    Session.placed_of_room rfl (show _ = Except.ok 16 from rfl) (by decide) (by decide)
  have hrun := Session.reachable_perform Reachable.init (.mallocMemory 16 .zero) hfresh rfl
  have hblock : ((Session.init eightChunks).perform (.mallocMemory 16 .zero)).2.InOneBlock
      (2 ^ 20 + 32) 8 := by
    refine ⟨⟨2 ^ 20 + 32, 16, 16, .malloc, .memset⟩, by decide, fun a ha ha' => ?_⟩
    simp only [Allocation.Contains]
    omega
  have hframe := (hclaim eightChunks _ hrun 1 (2 ^ 20 + 32) 8 (by decide) hblock).frame
    (2 ^ 20 + 40) (by decide)
  revert hframe
  decide

end Borealis
