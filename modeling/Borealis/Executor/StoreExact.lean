import Borealis.Executor.Memchr
import Borealis.Executor.MemsetExact

/-!
# What a store leaves

The bytes of a store are found afterwards (`StoreWalk.stored`).  The other bytes are as before if
the store forgets nothing: a chunk that is overwritten in part has no state of its own or is
uninitialized, because its buffer starts without what the state says, and a node above the chunks
whose state is pushed down has no children, because those that it has do not take the state over.

A memset of no bytes walks to its address all the same; it changes nothing if it finds nothing to
forget there.
-/

namespace Borealis

open Lib

/-- A store of `size` bytes at `addr` forgets nothing. -/
def StoresExactly (c : ℕ) : (h lo addr size : ℕ) → NodePtr → Prop
  | 0, lo, addr, size, t => (addr = lo ∧ size = c) ∨ t.force.1.Bare
  | h + 1, lo, addr, size, t =>
    (t.force.1.state = .unknown ∨ (t.force.2.1 = .null ∧ t.force.2.2 = .null)) ∧
      if lo + span c h ≤ addr then
        StoresExactly c h (lo + span c h) addr size (t.force.2.2.derive t.force.1)
      else if addr + size ≤ lo + span c h then
        StoresExactly c h lo addr size (t.force.2.1.derive t.force.1)
      else
        StoresExactly c h lo addr (lo + span c h - addr) (t.force.2.1.derive t.force.1) ∧
          StoresExactly c h (lo + span c h) (lo + span c h) (size - (lo + span c h - addr))
            (t.force.2.2.derive t.force.1)

section Walk

variable {c h lo addr a : ℕ} {s : StoreState} {t t' : NodePtr} {result : Except Fault Unit}

/-- A child that has its parent's state, or is left the byte, knows it as the parent does. -/
theorem known_pushed_left
    (hopen : t.force.1.state = .unknown ∨ (t.force.2.1 = .null ∧ t.force.2.2 = .null))
    (ha : a < lo + span c h) :
    knownByte (peekByte c h lo (t.force.2.1.derive t.force.1) a) =
      knownByte (peekByte c (h + 1) lo t a) := by
  by_cases hn : t.force.1.state = .unknown
  · exact known_left hn ha
  · obtain ⟨hl, -⟩ := hopen.resolve_left hn
    cases t with
    | null => exact absurd rfl hn
    | node n l r =>
        obtain rfl : l = .null := hl
        have hstate : n.state ≠ .unknown := hn
        rw [peekByte, peekByte, peek_known hstate]
        exact congrArg (fun e => knownByte (Except.map IntervalState.byte e)) (peek_known hstate)

theorem known_pushed_right
    (hopen : t.force.1.state = .unknown ∨ (t.force.2.1 = .null ∧ t.force.2.2 = .null))
    (ha : lo + span c h ≤ a) :
    knownByte (peekByte c h (lo + span c h) (t.force.2.2.derive t.force.1) a) =
      knownByte (peekByte c (h + 1) lo t a) := by
  by_cases hn : t.force.1.state = .unknown
  · exact known_right hn ha
  · obtain ⟨-, hr⟩ := hopen.resolve_left hn
    cases t with
    | null => exact absurd rfl hn
    | node n l r =>
        obtain rfl : r = .null := hr
        have hstate : n.state ≠ .unknown := hn
        rw [peekByte, peekByte, peek_known hstate]
        exact congrArg (fun e => knownByte (Except.map IntervalState.byte e)) (peek_known hstate)

/-- The bytes of a store are found afterwards. -/
theorem StoreWalk.stored (hw : StoreWalk c h lo addr s t result t') (hok : result = .ok ())
    (hend : addr + s.data.length < 2 ^ 64) (hlo : addr ≤ a) (hhi : a < addr + s.data.length)
    (hin : addr + s.data.length ≤ lo + span c h) :
    peekByte c h lo t' a = .ok (some s.data[a - addr]?) := by
  induction hw generalizing a with
  | outside => cases hok
  | reject => cases hok
  | tooLong => cases hok
  | unallocated => cases hok
  | splitFail => cases hok
  | @write lo addr s s' t haddr hcheck hlen hdid =>
      have hdata := checkAllocation_data hcheck
      rw [peekByte_buffer rfl rfl, hdata]
      have hmem : addr - lo ≤ a - lo ∧ a - lo < addr - lo + s.data.length := by omega
      have hsub : a - lo - (addr - lo) = a - addr := by omega
      simp only [Chunk.memcpy, hmem, and_self, if_true, hsub]
  | @split h lo addr s s' t result left' right' haddr hcheck hlt hover hleft hright ihl ihr =>
      have hdata := checkAllocation_data hcheck
      rw [span_succ] at hin
      rw [hdata, ptrAdd_of_lt hend] at hover
      rcases Nat.lt_or_ge a (lo + span c h) with ha | ha
      · rw [peekByte_left rfl ha, ihl rfl (by simp only [List.length_take, hdata]; omega) hlo
          (by simp only [List.length_take, hdata]; omega)
          (by simp only [List.length_take, hdata]; omega), hdata]
        simp only [List.getElem?_take_of_lt (show a - addr < lo + span c h - addr by omega)]
      · rw [peekByte_right rfl ha, ihr hok (by simp only [List.length_drop, hdata]; omega) ha
          (by simp only [List.length_drop, hdata]; omega)
          (by simp only [List.length_drop, hdata]; omega), hdata]
        simp only [List.getElem?_drop]
        congr 3
        omega
  | @left h lo addr s s' t result left' haddr hcheck hsplit hleft ihl =>
      have hdata := checkAllocation_data hcheck
      rw [hdata, ptrAdd_of_lt hend] at hsplit
      rw [hdata] at ihl
      rw [peekByte_left rfl (by omega)]
      exact ihl hok hend hlo hhi (by omega)
  | @right h lo addr s s' t result right' haddr hcheck hright ihr =>
      have hdata := checkAllocation_data hcheck
      rw [span_succ] at hin
      rw [hdata] at ihr
      rw [peekByte_right rfl (by omega)]
      exact ihr hok hend hlo hhi (by omega)

/-- A store that forgets nothing leaves the other bytes as they are. -/
theorem StoreWalk.frame (hw : StoreWalk c h lo addr s t result t') (hok : result = .ok ())
    (hend : addr + s.data.length < 2 ^ 64) (hin : addr + s.data.length ≤ lo + span c h)
    (hexact : StoresExactly c h lo addr s.data.length t) (hlo : lo ≤ a)
    (hhi : a < lo + span c h) (hout : ¬ (addr ≤ a ∧ a < addr + s.data.length)) :
    knownByte (peekByte c h lo t' a) = knownByte (peekByte c h lo t a) := by
  induction hw generalizing a with
  | outside => cases hok
  | reject => cases hok
  | tooLong => cases hok
  | unallocated => cases hok
  | splitFail => cases hok
  | @write lo addr s s' t haddr hcheck hlen hdid =>
      have hdata := checkAllocation_data hcheck
      rw [span_zero] at hhi
      -- a byte of the chunk that is left out shows that the chunk is not stored as a whole
      have hbare : t.force.1.Bare := by
        refine hexact.resolve_left fun hwhole => hout ?_
        omega
      have hmem : ¬ (addr - lo ≤ a - lo ∧ a - lo < addr - lo + s'.data.length) := by
        rw [hdata]
        omega
      rw [peekByte_buffer rfl rfl, known_chunk hbare]
      simp only [Chunk.memcpy, hmem, if_false]
      exact knownByte_some _
  | @split h lo addr s s' t result left' right' haddr hcheck hlt hover hleft hright ihl ihr =>
      have hdata := checkAllocation_data hcheck
      rw [hdata, ptrAdd_of_lt hend] at hover
      rw [span_succ] at hin hhi
      obtain ⟨hopen, hbelow⟩ := hexact
      rw [if_neg (by omega), if_neg (by omega)] at hbelow
      rcases Nat.lt_or_ge a (lo + span c h) with ha | ha
      · rw [peekByte_left rfl ha, ← known_pushed_left hopen ha]
        refine ihl rfl (by simp only [List.length_take, hdata]; omega)
          (by simp only [List.length_take, hdata]; omega) ?_ hlo ha
          (by simp only [List.length_take, hdata]; omega)
        have hlength : (s'.data.take (lo + span c h - addr)).length = lo + span c h - addr := by
          rw [List.length_take, hdata]
          omega
        rw [hlength]
        exact hbelow.1
      · rw [peekByte_right rfl ha, ← known_pushed_right hopen ha]
        refine ihr hok (by simp only [List.length_drop, hdata]; omega)
          (by simp only [List.length_drop, hdata]; omega) ?_ ha (by omega)
          (by simp only [List.length_drop, hdata]; omega)
        rw [List.length_drop, hdata]
        exact hbelow.2
  | @left h lo addr s s' t result left' haddr hcheck hsplit hleft ihl =>
      have hdata := checkAllocation_data hcheck
      rw [hdata, ptrAdd_of_lt hend] at hsplit
      rw [span_succ] at hhi
      rw [hdata] at ihl
      obtain ⟨hopen, hbelow⟩ := hexact
      rw [if_neg (by omega), if_pos (by omega)] at hbelow
      rcases Nat.lt_or_ge a (lo + span c h) with ha | ha
      · rw [peekByte_left rfl ha, ← known_pushed_left hopen ha]
        exact ihl hok hend (by omega) hbelow hlo ha hout
      · rw [peekByte_right rfl ha, known_pushed_right hopen ha]
  | @right h lo addr s s' t result right' haddr hcheck hright ihr =>
      have hdata := checkAllocation_data hcheck
      rw [span_succ] at hin hhi
      rw [hdata] at ihr
      obtain ⟨hopen, hbelow⟩ := hexact
      rw [if_pos haddr.1] at hbelow
      rcases Nat.lt_or_ge a (lo + span c h) with ha | ha
      · rw [peekByte_left rfl ha, known_pushed_left hopen ha]
      · rw [peekByte_right rfl ha, ← known_pushed_right hopen ha]
        exact ihr hok hend (by omega) hbelow ha (by omega) hout

end Walk

/-! ## A memset of no bytes -/

/-- The walk of a memset of no bytes to `addr` forgets nothing: it ends at a node that was set to
the same byte, or at a chunk whose state says nothing. -/
def KeepsBytes (c : ℕ) (fill : UInt8) : (h lo addr : ℕ) → NodePtr → Prop
  | 0, _, _, t => t.force.1.Bare
  | h + 1, lo, addr, t =>
    if t.force.1.state ≠ .unknown then t.force.1.state = .memset ∧ t.force.1.memSetTo = fill
    else if addr < lo + span c h then KeepsBytes c fill h lo addr (t.force.2.1.derive t.force.1)
    else KeepsBytes c fill h (lo + span c h) addr (t.force.2.2.derive t.force.1)

/-- A memset returned a node with the bytes that are known of `t`. -/
structure FillsNothing (c h lo : ℕ) (t : NodePtr) (result : Visited MemsetState) : Prop where
  ok : ∃ v, result.1 = .ok v
  frame : ∀ a, lo ≤ a → a < lo + span c h →
    knownByte (peekByte c h lo result.2 a) = knownByte (peekByte c h lo t a)

section Nothing

variable {c h lo addr : ℕ} {fill : UInt8} {t : NodePtr}

theorem keeps_chunk (hc : 0 < c) (hin : InNode c 0 lo addr 0) (hkeeps : t.force.1.Bare) :
    FillsNothing c 0 lo t (descend (memsetTraverser fill) c 0 lo ⟨addr, 0⟩ addr t) := by
  have hmem := hin.mem
  rw [span_zero] at hmem
  have hne : ¬ 0 = c := by omega
  have hadd : ptrAdd addr 0 = addr := hin.ptrAdd_eq
  rw [descend_chunk hmem (memsetTraverser_checkEmpty fill addr t)]
  simp only [memsetTraverser, hne, Nat.zero_le, hadd, hmem.2, if_true, if_false, not_true]
  refine ⟨⟨_, rfl⟩, fun a ha ha' => ?_⟩
  have hnot : ¬ (addr - lo ≤ a - lo ∧ a - lo < addr - lo + 0) := by omega
  rw [peekByte_buffer rfl rfl, known_chunk hkeeps]
  simp only [Chunk.memset, hnot, if_false]
  exact knownByte_some _

theorem keeps_known (hin : InNode c (h + 1) lo addr 0) (hstate : t.force.1.state ≠ .unknown)
    (hkeeps : t.force.1.state = .memset ∧ t.force.1.memSetTo = fill) :
    FillsNothing c (h + 1) lo t (descend (memsetTraverser fill) c (h + 1) lo ⟨addr, 0⟩ addr t) := by
  have hlazy : t.force.1.state ≠ .unknown ∧ lo ≤ addr ∧ ptrAdd addr 0 ≤ lo + span c (h + 1) :=
    ⟨hstate, hin.lo_le, hin.ptrAdd_eq ▸ hin.le_hi⟩
  rw [descend_done hin.mem (memsetTraverser_checkEmpty fill addr t)
    (memset_handlePath_lazy (s := ⟨addr, 0⟩) hlazy)]
  refine ⟨⟨_, rfl⟩, fun a ha ha' => ?_⟩
  rw [peekByte_memset rfl rfl]
  cases t with
  | null => exact absurd rfl hstate
  | node n l r =>
      have hmemset : n.state = .memset := hkeeps.1
      have hfill : n.memSetTo = fill := hkeeps.2
      rw [peekByte_memset hmemset hfill]

theorem FillsNothing.left {result : Visited MemsetState} (hn : t.force.1.state = .unknown)
    (hf : FillsNothing c h lo (t.force.2.1.derive t.force.1) result) :
    FillsNothing c (h + 1) lo t
      (result.1, .node t.force.1.invalidate result.2 (t.force.2.2.derive t.force.1)) := by
  refine ⟨hf.ok, fun a hlo hhi => ?_⟩
  rcases Nat.lt_or_ge a (lo + span c h) with ha | ha
  · rw [peekByte_left rfl ha, hf.frame a hlo ha, known_left hn ha]
  · rw [peekByte_right rfl ha, known_right hn ha]

theorem FillsNothing.right {result : Visited MemsetState} (hn : t.force.1.state = .unknown)
    (hf : FillsNothing c h (lo + span c h) (t.force.2.2.derive t.force.1) result) :
    FillsNothing c (h + 1) lo t
      (result.1, .node t.force.1.invalidate (t.force.2.1.derive t.force.1) result.2) := by
  refine ⟨hf.ok, fun a hlo hhi => ?_⟩
  rw [span_succ] at hhi
  rcases Nat.lt_or_ge a (lo + span c h) with ha | ha
  · rw [peekByte_left rfl ha, known_left hn ha]
  · rw [peekByte_right rfl ha, hf.frame a ha (by omega), known_right hn ha]

/-- **A memset of no bytes changes nothing** if its walk forgets nothing. -/
theorem keeps_descend (hc : 0 < c) (hin : InNode c h lo addr 0)
    (hkeeps : KeepsBytes c fill h lo addr t) :
    FillsNothing c h lo t (descend (memsetTraverser fill) c h lo ⟨addr, 0⟩ addr t) := by
  induction h generalizing lo t with
  | zero => exact keeps_chunk hc hin hkeeps
  | succ h ih =>
      unfold KeepsBytes at hkeeps
      split at hkeeps
      · next hstate => exact keeps_known hin hstate hkeeps
      next hstate =>
      have hn : t.force.1.state = .unknown := not_not.mp hstate
      have hempty := memsetTraverser_checkEmpty fill addr t
      have hlazy : ¬ (t.force.1.state ≠ .unknown ∧ lo ≤ addr ∧
          ptrAdd addr 0 ≤ lo + span c (h + 1)) := fun hlazy => hstate hlazy.1
      have hmem := hin.mem
      have hadd := hin.ptrAdd_eq
      have hsplit : ¬ (addr < lo + span c h ∧ lo + span c h < ptrAdd addr 0) := by omega
      split at hkeeps
      · next hlt =>
          rw [descend_left ⟨hmem.1, hlt⟩ hempty
            (memset_handlePath_descend (s := ⟨addr, 0⟩) hlazy hsplit)]
          exact (ih (hin.left hlt hlt.le) hkeeps).left hn
      · next hge =>
          have hge : lo + span c h ≤ addr := Nat.le_of_not_lt hge
          rw [span_succ] at hmem
          rw [descend_right ⟨hge, by omega⟩ hempty
            (memset_handlePath_descend (s := ⟨addr, 0⟩) hlazy hsplit)]
          exact (ih (hin.right hge) hkeeps).right hn

end Nothing

/-! ## Sessions -/

section Session

variable {L : Layout} {s : Session} {addr : ℕ} {data : List UInt8}

/-- The bytes of the range are known. -/
def Session.Known (s : Session) (addr : ℕ) (bytes : List UInt8) : Prop :=
  ∀ j (hj : j < bytes.length), s.value (addr + j) = some bytes[j]

theorem Session.value_eq (a : ℕ) : s.value a = knownByte ((s.get a).map IntervalState.byte) := by
  unfold value
  cases s.get a with
  | error e => rfl
  | ok i =>
      change i.byte.join = knownByte (.ok i.byte)
      rcases i.byte with _ | _ | v <;> rfl

/-- The result of a store, and the memory after it. -/
theorem Session.perform_store (data : List UInt8) :
    (s.perform (.store addr data)).1 = (s.sim.store addr data).1 ∧
      (s.perform (.store addr data)).2.sim = (s.sim.store addr data).2 := by
  refine ⟨?_, Session.settle_sim fun _ _ => rfl⟩
  simp only [perform, settle]
  cases (s.sim.store addr data).1 <;> rfl

/-- A store to live blocks is accepted, and its bytes are known afterwards. -/
theorem Session.Tracked.store_known (h : s.Tracked L) (hfirst : s.InBlocks addr 1)
    (hblocks : s.InBlocks addr data.length) :
    (s.perform (.store addr data)).1 = .ok () ∧ (s.perform (.store addr data)).2.Tracked L ∧
      (s.perform (.store addr data)).2.Known addr data := by
  obtain ⟨hlo, hlast⟩ := hfirst.mem h Nat.one_pos
  have hstop := L.stop_lt
  have hwalk := Session.storeWalk h.layout addr data
  have hstored : addr + data.length ≤ L.stop ∧ (s.perform (.store addr data)).1 = .ok () := by
    rcases Nat.eq_zero_or_pos data.length with hempty | hpos
    · refine ⟨by omega, hwalk.ok_of_empty rfl h.checkable hempty ?_ ?_⟩
      · exact ⟨hlo, show addr < L.stop by omega, show addr + data.length ≤ L.stop by omega, hstop⟩
      · exact (h.owned_iff hlo hlast).mpr hfirst
    · obtain ⟨-, hhi⟩ := hblocks.mem h hpos
      exact ⟨hhi, (h.store_acceptedIf hpos hlo hhi).ok_iff.mpr hblocks⟩
  obtain ⟨hhi, hok⟩ := hstored
  have htracked := h.step (Session.placed_of_request_none rfl) (Session.step_of_ok hok)
  have hend : addr + data.length < 2 ^ 64 := by omega
  refine ⟨hok, htracked, fun j hj => ?_⟩
  rw [Session.value_eq, Session.get_map_byte htracked.layout (by omega) (by omega),
    hwalk.stored hok hend (Nat.le_add_right addr j) (by simp only; omega) hhi,
    Nat.add_sub_cancel_left, List.getElem?_eq_getElem hj]
  rfl

/-- A store to live blocks that forgets nothing leaves the other bytes as they were. -/
theorem Session.Tracked.store_frame (h : s.Tracked L) (hfirst : s.InBlocks addr 1)
    (hblocks : s.InBlocks addr data.length)
    (hexact : StoresExactly L.chunkSize L.power Layout.start addr data.length s.root) {a : ℕ}
    (hout : ¬ (addr ≤ a ∧ a < addr + data.length)) :
    (s.perform (.store addr data)).2.value a = s.value a := by
  obtain ⟨hok, htracked, -⟩ := h.store_known hfirst hblocks
  have hstop := L.stop_lt
  have hhi : addr + data.length ≤ L.stop := by
    rcases Nat.eq_zero_or_pos data.length with hempty | hpos
    · obtain ⟨-, hlast⟩ := hfirst.mem h Nat.one_pos
      omega
    · exact (hblocks.mem h hpos).2
  rw [Session.value_eq, Session.value_eq]
  apply Session.known_congr h.layout htracked.layout
  intro ha ha'
  exact (Session.storeWalk h.layout addr data).frame hok (by simp only; omega) hhi hexact ha ha'
    hout

/-- A memset of no bytes in a live block changes no byte, if its walk forgets nothing. -/
theorem Session.Tracked.memset_nothing (h : s.Tracked L) (hfirst : s.InBlocks addr 1) {fill : UInt8}
    (hkeeps : KeepsBytes L.chunkSize fill L.power Layout.start addr s.root) :
    (s.perform (.memset addr fill 0)).1 = .ok () ∧
      ∀ a, (s.perform (.memset addr fill 0)).2.value a = s.value a := by
  obtain ⟨hlo, hhi⟩ := hfirst.mem h Nat.one_pos
  have hin : InNode L.chunkSize L.power Layout.start addr 0 :=
    ⟨hlo, show addr < L.stop by omega, show addr + 0 ≤ L.stop by omega, L.stop_lt⟩
  obtain ⟨hperform, hroot⟩ := Session.perform_memset h.layout
    (show ¬ (addr < Layout.start ∨ L.stop ≤ addr) by omega) fill 0
  have hlayout : (s.perform (.memset addr fill 0)).2.sim.HasLayout L :=
    Session.memset_hasLayout h.layout
  have hkept := keeps_descend L.pos hin hkeeps
  refine ⟨?_, fun a => ?_⟩
  · obtain ⟨v, hv⟩ := hkept.ok
    rw [hperform, hv]
    rfl
  · rw [Session.value_eq, Session.value_eq]
    apply Session.known_congr h.layout hlayout
    intro ha ha'
    rw [hroot, hkept.frame a ha ha']

end Session

end Borealis
