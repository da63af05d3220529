import Borealis.Executor.Peek
import Borealis.Executor.StoreCheck

/-!
# Trees that stand for a flat memory

A flat memory gives a reading at each address of a live allocation.  `Renders` says how the node
of an allocated block, and the nodes below it, stand for the readings: a node whose state is known
answers for all of its bytes and has no children, a chunk without a state has a buffer with the
bytes, and any other node leaves it to its two children.  `Frames` is about the nodes above the
blocks.  An allocation and a release keep `Frames`, and so does a store that overwrites the whole
of what the chunks it touches are known for.
-/

namespace Borealis

open Lib

/-- What a load can find out about one byte. -/
inductive Reading where
  | byte (b : UInt8)
  | memset (fill : UInt8)
  | uninit
deriving DecidableEq, Repr

/-- What an interval says about its first byte.  The byte behind a data pointer is read from the
buffer; there is nothing to read if the buffer is missing or not initialized there. -/
def IntervalState.reading (i : IntervalState) : Option Reading :=
  match i.memState, i.data with
  | .memset, _ => some (.memset i.filledWith)
  | .uninit, _ => some .uninit
  | .unknown, some (some chunk, offset) => (chunk offset).map .byte
  | .unknown, _ => none

/-- A memory without structure: a reading for each byte of a live allocation. -/
abbrev Flat := ℕ → Option Reading

/-- What a node whose state is known says about each of its bytes. -/
def SegmentNode.reading (n : SegmentNode) : Option Reading :=
  IntervalState.reading ⟨none, n.state, n.memSetTo⟩

/-- The node `t` of height `h` at `lo` lies in an allocated block and stands for the readings. -/
inductive Renders (c : ℕ) (flat : Flat) : (h lo : ℕ) → NodePtr → Prop
  | lazy {h lo n} : n.state ≠ .unknown →
      (∀ a v, lo ≤ a → a < lo + span c h → flat a = some v → n.reading = some v) →
      Renders c flat h lo (.node n .null .null)
  | chunk {lo n l r buffer} : n.state = .unknown → n.chunk = some buffer →
      (∀ a v, lo ≤ a → a < lo + c → flat a = some v → (buffer (a - lo)).map .byte = some v) →
      Renders c flat 0 lo (.node n l r)
  | split {h lo n l r} : n.state = .unknown → Renders c flat h lo l →
      Renders c flat h (lo + span c h) r → Renders c flat (h + 1) lo (.node n l r)

/-- The node `t` of height `h` at `lo` lies in no block, is a block, or lies above blocks.
`issued` are the addresses that were ever handed out. -/
inductive Frames (c : ℕ) (flat : Flat) (issued : ℕ → Prop) : (h lo : ℕ) → NodePtr → Prop
  | null {h lo} : (∀ a, lo ≤ a → a < lo + span c h → flat a = none) →
      Frames c flat issued h lo .null
  | bare {h lo n} : n.status = .unallocated → n.state = .unknown →
      (∀ a, lo ≤ a → a < lo + span c h → flat a = none) →
      Frames c flat issued h lo (.node n .null .null)
  | block {h lo n l r} : n.status ≠ .unallocated →
      (∀ a, lo ≤ a → a < lo + span c h → issued a) → Renders c flat h lo (.node n l r) →
      Frames c flat issued h lo (.node n l r)
  | path {h lo n l r} : n.status = .unallocated → n.state = .unknown →
      (∃ a, (lo ≤ a ∧ a < lo + span c (h + 1)) ∧ issued a) → Frames c flat issued h lo l →
      Frames c flat issued h (lo + span c h) r → Frames c flat issued (h + 1) lo (.node n l r)

section Loads

variable {c h lo a : ℕ} {flat flat' : Flat} {issued issued' : ℕ → Prop} {t : NodePtr} {v : Reading}

/-- A load in a block finds the reading. -/
theorem Renders.peek_eq (hr : Renders c flat h lo t) (hlo : lo ≤ a) (hhi : a < lo + span c h)
    (hv : flat a = some v) : (peek c h lo t a).map IntervalState.reading = .ok (some v) := by
  induction hr with
  | lazy hn hall =>
      rw [peek_known hn]
      exact congrArg Except.ok (hall a v hlo hhi hv)
  | chunk hn hbuffer hall =>
      rw [span_zero] at hhi
      rw [peek_chunk hn, hbuffer]
      exact congrArg Except.ok (hall a v hlo hhi hv)
  | @split h lo n l r hn _ _ ihl ihr =>
      rw [span_succ] at hhi
      rcases Nat.lt_or_ge a (lo + span c h) with ha | ha
      · rw [peek_left hn ha]
        exact ihl hlo ha
      · rw [peek_right hn ha]
        exact ihr ha (by omega)

/-- A load of a live byte finds the reading. -/
theorem Frames.peek_eq (hf : Frames c flat issued h lo t) (hlo : lo ≤ a) (hhi : a < lo + span c h)
    (hv : flat a = some v) : (peek c h lo t a).map IntervalState.reading = .ok (some v) := by
  induction hf with
  | null hnone => simp [hnone a hlo hhi] at hv
  | bare _ _ hnone => simp [hnone a hlo hhi] at hv
  | block _ _ hr => exact hr.peek_eq hlo hhi hv
  | @path h lo n l r _ hn _ _ _ ihl ihr =>
      rw [span_succ] at hhi
      rcases Nat.lt_or_ge a (lo + span c h) with ha | ha
      · rw [peek_left hn ha]
        exact ihl hlo ha
      · rw [peek_right hn ha]
        exact ihr ha (by omega)

/-- Only the readings of the node matter. -/
theorem Renders.congr (hr : Renders c flat h lo t)
    (hflat : ∀ a, lo ≤ a → a < lo + span c h → flat' a = flat a) : Renders c flat' h lo t := by
  induction hr with
  | lazy hn hall =>
      exact .lazy hn fun a v hlo hhi hv => hall a v hlo hhi (hflat a hlo hhi ▸ hv)
  | chunk hn hbuffer hall =>
      rw [span_zero] at hflat
      exact .chunk hn hbuffer fun a v hlo hhi hv => hall a v hlo hhi (hflat a hlo hhi ▸ hv)
  | split hn _ _ ihl ihr =>
      rw [span_succ] at hflat
      exact .split hn (ihl fun a hlo hhi => hflat a hlo (by omega))
        (ihr fun a hlo hhi => hflat a (by omega) (by omega))

/-- Only the readings of the node matter, and more addresses may have been handed out. -/
theorem Frames.congr (hf : Frames c flat issued h lo t)
    (hflat : ∀ a, lo ≤ a → a < lo + span c h → flat' a = flat a)
    (hissued : ∀ a, issued a → issued' a) : Frames c flat' issued' h lo t := by
  induction hf with
  | null hnone => exact .null fun a hlo hhi => (hflat a hlo hhi).trans (hnone a hlo hhi)
  | bare hs hn hnone =>
      exact .bare hs hn fun a hlo hhi => (hflat a hlo hhi).trans (hnone a hlo hhi)
  | block hs hall hr => exact .block hs (fun a hlo hhi => hissued a (hall a hlo hhi)) (hr.congr hflat)
  | path hs hn hsome _ _ ihl ihr =>
      obtain ⟨a, ha, hissue⟩ := hsome
      rw [span_succ] at hflat
      exact .path hs hn ⟨a, ha, hissued a hissue⟩ (ihl fun a hlo hhi => hflat a hlo (by omega))
        (ihr fun a hlo hhi => hflat a (by omega) (by omega))

end Loads

/-! ## Forcing the children -/

section Force

variable {c h lo : ℕ} {flat : Flat} {issued : ℕ → Prop} {t : NodePtr}

theorem Renders.derive_eq (hr : Renders c flat h lo t) (n : SegmentNode) : t.derive n = t := by
  cases hr <;> rfl

/-- The children of a node of a block stand for its readings once the state was pushed down. -/
theorem Renders.force (hr : Renders c flat (h + 1) lo t) :
    Renders c flat h lo (t.force.2.1.derive t.force.1) ∧
      Renders c flat h (lo + span c h) (t.force.2.2.derive t.force.1) := by
  cases hr with
  | @lazy _ _ n hn hall =>
      rw [span_succ] at hall
      have hleft : ∀ a v, lo ≤ a → a < lo + span c h → flat a = some v → n.reading = some v :=
        fun a v hlo hhi => hall a v hlo (by omega)
      have hright : ∀ a v, lo + span c h ≤ a → a < lo + span c h + span c h → flat a = some v →
          n.reading = some v := fun a v hlo hhi => hall a v (by omega) (by omega)
      exact ⟨.lazy hn hleft, .lazy hn hright⟩
  | @split _ _ n l r hn hl hr =>
      simp only [NodePtr.force_node, hl.derive_eq, hr.derive_eq]
      exact ⟨hl, hr⟩

/-- A node that is created below a node without a state is in no block. -/
theorem Frames.derive (hf : Frames c flat issued h lo t) {n : SegmentNode}
    (hn : n.state = .unknown) : Frames c flat issued h lo (t.derive n) := by
  cases hf with
  | null hnone => exact .bare rfl hn hnone
  | bare hs hn' hnone => exact .bare hs hn' hnone
  | block hs hall hr => exact .block hs hall hr
  | path hs hn' hsome hl hr => exact .path hs hn' hsome hl hr

/-- A node that is not allocated has no state, and its children are in no block, blocks, or above
blocks. -/
theorem Frames.force (hf : Frames c flat issued (h + 1) lo t)
    (hstatus : t.force.1.status = .unallocated) :
    t.force.1.state = .unknown ∧ Frames c flat issued h lo (t.force.2.1.derive t.force.1) ∧
      Frames c flat issued h (lo + span c h) (t.force.2.2.derive t.force.1) := by
  cases hf with
  | null hnone =>
      rw [span_succ] at hnone
      exact ⟨rfl, .bare rfl rfl fun a hlo hhi => hnone a hlo (by omega),
        .bare rfl rfl fun a hlo hhi => hnone a (by omega) (by omega)⟩
  | bare hs hn hnone =>
      rw [span_succ] at hnone
      exact ⟨hn, .bare rfl hn fun a hlo hhi => hnone a hlo (by omega),
        .bare rfl hn fun a hlo hhi => hnone a (by omega) (by omega)⟩
  | block hs _ _ => exact absurd hstatus hs
  | path hs hn _ hl hr => exact ⟨hn, hl.derive hn, hr.derive hn⟩

end Force

/-! ## Allocation -/

/-- A node over addresses that were never handed out has no children and no state. -/
theorem Frames.bare_of_not_issued {c h lo : ℕ} {flat : Flat} {issued : ℕ → Prop} {t : NodePtr}
    (hc : 0 < c) (hf : Frames c flat issued h lo t)
    (hnew : ∀ a, lo ≤ a → a < lo + span c h → ¬ issued a) :
    t.force.1.status = .unallocated ∧ t.force.2.1 = .null ∧ t.force.2.2 = .null := by
  have hpos := span_pos hc h
  cases hf with
  | null => exact ⟨rfl, rfl, rfl⟩
  | bare hs => exact ⟨hs, rfl, rfl⟩
  | block _ hall => exact absurd (hall lo le_rfl (by omega)) (hnew lo le_rfl (by omega))
  | path _ _ hsome =>
      obtain ⟨a, ha, hissue⟩ := hsome
      exact absurd hissue (hnew a ha.1 ha.2)

/-- A node over an address that was never handed out is not allocated. -/
theorem Frames.unallocated_of_not_issued {c h lo a : ℕ} {flat : Flat} {issued : ℕ → Prop}
    {t : NodePtr} (hf : Frames c flat issued h lo t) (ha : lo ≤ a ∧ a < lo + span c h)
    (hnew : ¬ issued a) : t.force.1.status = .unallocated := by
  cases hf with
  | null => rfl
  | bare hs => exact hs
  | block _ hall => exact absurd (hall a ha.1 ha.2) hnew
  | path hs => exact hs

/-- What an allocation that asks for `size` bytes at `p` adds to a flat memory. -/
def Flat.allocated (flat : Flat) (p real size : ℕ) (reading : Reading) : Flat := fun a =>
  if p ≤ a ∧ a < p + real then (if a < p + size then some reading else none) else flat a

theorem Flat.allocated_of_outside {flat : Flat} {p real size a : ℕ} {reading : Reading}
    (ha : ¬ (p ≤ a ∧ a < p + real)) : flat.allocated p real size reading a = flat a := by
  simp [allocated, ha]

/-- Allocation of addresses that were never handed out keeps the flat memory. -/
theorem frames_alloc {c size k p : ℕ} {flat : Flat} {issued : ℕ → Prop} {reading : Reading}
    {state : MemoryState} {status : MemoryStatus} (hc : 0 < c) (hlevel : Level c size k)
    (hstatus : status ≠ .unallocated) (hstate : state ≠ .unknown)
    (hreading : ∀ n : SegmentNode, (n.allocate state status size).reading = some reading)
    {h lo : ℕ} (hnode : IsNode c h lo k p) (t : NodePtr) (hf : Frames c flat issued h lo t)
    (hnew : ∀ a, p ≤ a → a < p + span c k → ¬ issued a) :
    Frames c (flat.allocated p (span c k) size reading)
      (fun a => (p ≤ a ∧ a < p + span c k) ∨ issued a) h lo
      (descend (allocTraverser state status size) c h lo () p t).2 := by
  have hk := span_pos hc k
  refine (descend_alloc (R := fun h lo t t' => Frames c flat issued h lo t →
    Frames c (flat.allocated p (span c k) size reading)
      (fun a => (p ≤ a ∧ a < p + span c k) ∨ issued a) h lo t') hc hlevel ?here ?left ?right hnode
    t).2 hf
  case here =>
    intro t hf
    obtain ⟨-, hl, hr⟩ := hf.bare_of_not_issued hc hnew
    rw [hl, hr]
    refine .block hstatus (fun a hlo hhi => Or.inl ⟨hlo, hhi⟩) (.lazy hstate ?_)
    intro a v hlo hhi hv
    rw [hreading]
    simp only [Flat.allocated, hlo, hhi, and_self, if_true] at hv
    split at hv
    · exact hv
    · cases hv
  case left =>
    intro h lo t l' hn ih hf
    have hbase := hn.le_base
    have hend := hn.end_le
    have hstatus := hf.unallocated_of_not_issued (a := p) ⟨hbase, by rw [span_succ]; omega⟩
      (hnew p le_rfl (by omega))
    obtain ⟨-, hl, hr⟩ := hf.force hstatus
    refine .path hstatus rfl ⟨p, ⟨hbase, by rw [span_succ]; omega⟩, Or.inl ⟨le_rfl, by omega⟩⟩
      (ih hl) (hr.congr (fun a hlo hhi => ?_) fun a => Or.inr)
    exact Flat.allocated_of_outside (by omega)
  case right =>
    intro h lo t r' hn ih hf
    have hbase := hn.le_base
    have hend := hn.end_le
    have hstatus := hf.unallocated_of_not_issued (a := p) ⟨by omega, by rw [span_succ]; omega⟩
      (hnew p le_rfl (by omega))
    obtain ⟨-, hl, hr⟩ := hf.force hstatus
    refine .path hstatus rfl ⟨p, ⟨by omega, by rw [span_succ]; omega⟩, Or.inl ⟨le_rfl, by omega⟩⟩
      (hl.congr (fun a hlo hhi => ?_) fun a => Or.inr) (ih hr)
    exact Flat.allocated_of_outside (by omega)

/-! ## Release -/

/-- The flat memory `flat'` is `flat` without the addresses whose owner a release takes away. -/
structure Flat.Released (c h lo : ℕ) (t : NodePtr) (addr : ℕ) (st : MemoryStatus)
    (flat flat' : Flat) : Prop where
  gone : ∀ a, lo ≤ a → a < lo + span c h → ∀ o ∈ owners c h lo t a, ¬ o.keptBy addr st →
    flat' a = none
  kept : ∀ a, lo ≤ a → a < lo + span c h → (∀ o ∈ owners c h lo t a, o.keptBy addr st) →
    flat' a = flat a

section Released

variable {c h lo addr : ℕ} {n : SegmentNode} {l r : NodePtr} {st : MemoryStatus}
  {flat flat' : Flat}

theorem Flat.Released.left (hs : n.status = .unallocated)
    (hflat : Flat.Released c (h + 1) lo (.node n l r) addr st flat flat') :
    Flat.Released c h lo l addr st flat flat' := by
  have howner : n.owner lo = [] := by simp [SegmentNode.owner, hs]
  have heq : ∀ a, a < lo + span c h → owners c (h + 1) lo (.node n l r) a = owners c h lo l a := by
    intro a ha
    rw [owners_left ha, NodePtr.force_node, howner, List.nil_append]
  obtain ⟨hgone, hkept⟩ := hflat
  rw [span_succ] at hgone hkept
  exact ⟨fun a hlo hhi o ho => hgone a hlo (by omega) o (heq a hhi ▸ ho),
    fun a hlo hhi hall => hkept a hlo (by omega) (heq a hhi ▸ hall)⟩

theorem Flat.Released.right (hs : n.status = .unallocated)
    (hflat : Flat.Released c (h + 1) lo (.node n l r) addr st flat flat') :
    Flat.Released c h (lo + span c h) r addr st flat flat' := by
  have howner : n.owner lo = [] := by simp [SegmentNode.owner, hs]
  have heq : ∀ a, lo + span c h ≤ a →
      owners c (h + 1) lo (.node n l r) a = owners c h (lo + span c h) r a := by
    intro a ha
    rw [owners_right ha, NodePtr.force_node, howner, List.nil_append]
  obtain ⟨hgone, hkept⟩ := hflat
  rw [span_succ] at hgone hkept
  exact ⟨fun a hlo hhi o ho => hgone a (by omega) (by omega) o (heq a hlo ▸ ho),
    fun a hlo hhi hall => hkept a (by omega) (by omega) (heq a hlo ▸ hall)⟩

end Released

/-- A release keeps the flat memory, less the block it takes away. -/
theorem FreeWalk.frames {c h lo addr : ℕ} {st : MemoryStatus} {t t' : NodePtr}
    {result : Except Fault Unit} {flat flat' : Flat} {issued : ℕ → Prop} (hc : 0 < c)
    (hst : st ≠ .unallocated) (hw : FreeWalk c st addr h lo t result t')
    (hf : Frames c flat issued h lo t) (hone : SingleOwner c h lo t)
    (hflat : Flat.Released c h lo t addr st flat flat') : Frames c flat' issued h lo t' := by
  have hsame : ∀ {h lo t t' result}, FreeWalk c st addr h lo t result t' →
      Frames c flat issued h lo t → Flat.Released c h lo t addr st flat flat' →
      (∀ a, lo ≤ a → a < lo + span c h → ∀ o ∈ owners c h lo t a, o.keptBy addr st) →
      Frames c flat' issued h lo t' := by
    intro h lo t t' result hw hf hflat hkept
    rw [hw.eq_of_kept hc hst hkept]
    exact hf.congr (fun a hlo hhi => hflat.kept a hlo hhi (hkept a hlo hhi)) fun _ => id
  induction hw with
  | outside haddr => exact hsame (.outside haddr) hf hflat fun a _ _ => keptBy_of_outside hc haddr
  | missing haddr => exact hsame (.missing haddr) hf hflat fun a _ _ o ho => by simp at ho
  | @hit h n l r hn =>
      refine .null fun a hlo hhi => hflat.gone a hlo hhi ⟨addr, n.reallyAllocated, st⟩ ?_ ?_
      · cases h <;> simp [owners, SegmentNode.owner, hn, hst]
      · simp [Owner.keptBy]
  | miss haddr hmiss =>
      exact hsame (.miss haddr hmiss) hf hflat fun a _ _ => SegmentNode.keptBy_of_miss hmiss
  | @left h lo n l r result l' haddr hmiss hleft ih =>
      have hkept := SegmentNode.keptBy_of_miss hmiss
      have hwhole := hsame (.left haddr hmiss hleft (r := r)) hf hflat
      cases hf with
      | bare => exact hwhole fun a _ _ o ho => hkept o (by simpa [owners] using ho)
      | block hs =>
          exact hwhole fun a hlo hhi o ho => hkept o (hone.owners_eq hs hlo hhi ▸ ho)
      | path hs hn hsome hl hr =>
          refine .path hs hn hsome (ih hl hone.left (hflat.left hs)) (hr.congr (fun a hlo hhi => ?_)
            fun _ => id)
          exact (hflat.right hs).kept a hlo hhi (keptBy_of_outside hc (by omega))
  | @right h lo n l r result r' haddr hmiss hright ih =>
      have hkept := SegmentNode.keptBy_of_miss hmiss
      have hwhole := hsame (.right haddr hmiss hright (l := l)) hf hflat
      cases hf with
      | bare => exact hwhole fun a _ _ o ho => hkept o (by simpa [owners] using ho)
      | block hs =>
          exact hwhole fun a hlo hhi o ho => hkept o (hone.owners_eq hs hlo hhi ▸ ho)
      | path hs hn hsome hl hr =>
          refine .path hs hn hsome (hl.congr (fun a hlo hhi => ?_) fun _ => id)
            (ih hr hone.right (hflat.right hs))
          exact (hflat.left hs).kept a hlo hhi (keptBy_of_outside hc (by omega))

/-! ## Stores -/

/-- The flat memory `flat'` is `flat` after `data` was stored at `addr`, seen from the node of
height `h` at `lo`; and every chunk that the store touches is known byte by byte outside of the
stored range. -/
structure Flat.Stored (c h lo addr : ℕ) (data : List UInt8) (flat flat' : Flat) : Prop where
  inside : ∀ a, lo ≤ a → a < lo + span c h → addr ≤ a → a < addr + data.length →
    flat' a = data[a - addr]?.map .byte
  outside : ∀ a, lo ≤ a → a < lo + span c h → ¬ (addr ≤ a ∧ a < addr + data.length) →
    flat' a = flat a
  whole : ∀ q, IsNode c h lo 0 q → q < addr + max 1 data.length → addr < q + c →
    ∀ a v, q ≤ a → a < q + c → ¬ (addr ≤ a ∧ a < addr + data.length) → flat a = some v →
      ∃ b, v = .byte b

namespace Flat.Stored

variable {c h lo addr : ℕ} {data : List UInt8} {flat flat' : Flat}

theorem left (hs : Flat.Stored c (h + 1) lo addr data flat flat') :
    Flat.Stored c h lo addr data flat flat' where
  inside a hlo hhi := hs.inside a hlo (by rw [span_succ]; omega)
  outside a hlo hhi := hs.outside a hlo (by rw [span_succ]; omega)
  whole q hq := hs.whole q hq.left

theorem right (hs : Flat.Stored c (h + 1) lo addr data flat flat') :
    Flat.Stored c h (lo + span c h) addr data flat flat' where
  inside a hlo hhi := hs.inside a (by omega) (by rw [span_succ]; omega)
  outside a hlo hhi := hs.outside a (by omega) (by rw [span_succ]; omega)
  whole q hq := hs.whole q hq.right

/-- Before the midpoint only the first part of the data counts. -/
theorem take (hs : Flat.Stored c h lo addr data flat flat')
    (hlt : addr < lo + span c h) (hgt : lo + span c h < addr + data.length) :
    Flat.Stored c h lo addr (data.take (lo + span c h - addr)) flat flat' := by
  have hlen : (data.take (lo + span c h - addr)).length = lo + span c h - addr := by
    rw [List.length_take]
    omega
  refine ⟨fun a hlo hhi ha ha' => ?_, fun a hlo hhi ha => ?_, fun q hq hq' hq'' a v ha ha' hout => ?_⟩
  · rw [hs.inside a hlo hhi ha (by omega), List.getElem?_take_of_lt (by omega)]
  · exact hs.outside a hlo hhi (by omega)
  · have hend := hq.end_le
    rw [span_zero] at hend
    exact hs.whole q hq (by omega) hq'' a v ha ha' (by omega)

/-- Behind the midpoint only the rest of the data counts. -/
theorem drop (hs : Flat.Stored c h lo addr data flat flat') (hlt : addr < lo)
    (hgt : lo < addr + data.length) :
    Flat.Stored c h lo lo (data.drop (lo - addr)) flat flat' := by
  have hlen : (data.drop (lo - addr)).length = data.length - (lo - addr) := List.length_drop
  refine ⟨fun a hlo hhi ha ha' => ?_, fun a hlo hhi ha => ?_, fun q hq hq' hq'' a v ha ha' hout => ?_⟩
  · rw [hs.inside a hlo hhi (by omega) (by omega), List.getElem?_drop]
    congr 2
    omega
  · exact hs.outside a hlo hhi (by omega)
  · have hbase := hq.le_base
    exact hs.whole q hq (by omega) (by omega) a v ha ha' (by omega)

/-- A node that the store does not reach. -/
theorem outside_of_disjoint (hs : Flat.Stored c h lo addr data flat flat')
    (hout : addr + data.length ≤ lo ∨ lo + span c h ≤ addr) :
    ∀ a, lo ≤ a → a < lo + span c h → flat' a = flat a :=
  fun a hlo hhi => hs.outside a hlo hhi (by omega)

end Flat.Stored

theorem Chunk.memcpy_inside {b : Chunk} {offset i : ℕ} {data : List UInt8}
    (hi : offset ≤ i ∧ i < offset + data.length) : b.memcpy offset data i = data[i - offset]? := by
  simp [memcpy, hi]

theorem Chunk.memcpy_outside {b : Chunk} {offset i : ℕ} {data : List UInt8}
    (hi : ¬ (offset ≤ i ∧ i < offset + data.length)) : b.memcpy offset data i = b i := by
  simp [memcpy, hi]

theorem SegmentNode.reading_ne_byte {n : SegmentNode} (hn : n.state ≠ .unknown) (b : UInt8) :
    n.reading ≠ some (.byte b) := by
  unfold reading IntervalState.reading
  cases h : n.state <;> simp_all

/-- A chunk of a block after a store into it. -/
theorem Renders.write {c lo addr : ℕ} {data : List UInt8} {flat flat' : Flat} {t : NodePtr}
    (hr : Renders c flat 0 lo t) (hs : Flat.Stored c 0 lo addr data flat flat')
    (haddr : lo ≤ addr ∧ addr < lo + c) :
    Renders c flat' 0 lo (.node { t.force.1 with
      state := .unknown
      chunk := some ((t.force.1.chunk.getD Chunk.fresh).memcpy (addr - lo) data) }
      t.force.2.1 t.force.2.2) := by
  refine .chunk rfl rfl fun a v hlo hhi hv => ?_
  have hspan : a < lo + span c 0 := by rwa [span_zero]
  by_cases hin : addr ≤ a ∧ a < addr + data.length
  · rw [hs.inside a hlo hspan hin.1 hin.2] at hv
    rw [Chunk.memcpy_inside (by omega), ← hv]
    congr 2
    omega
  · rw [hs.outside a hlo hspan hin] at hv
    rw [Chunk.memcpy_outside (by omega)]
    -- the store leaves only bytes that the buffer already holds
    obtain ⟨b, rfl⟩ := hs.whole lo (.here 0 lo) (by omega) haddr.2 a v hlo hhi hin hv
    cases hr with
    | lazy hn hall => exact absurd (hall a _ hlo hspan hv) (SegmentNode.reading_ne_byte hn b)
    | chunk hn hbuffer hall =>
        rw [NodePtr.force_node, hbuffer]
        exact hall a _ hlo hhi hv

/-- A store that returns keeps what a block stands for. -/
theorem StoreWalk.renders {c h lo addr : ℕ} {s : StoreState} {t t' : NodePtr}
    {result : Except Fault Unit} {flat flat' : Flat} (hw : StoreWalk c h lo addr s t result t')
    (hok : result = .ok ()) (hr : Renders c flat h lo t)
    (hs : Flat.Stored c h lo addr s.data flat flat') (hin : InNode c h lo addr s.data.length) :
    Renders c flat' h lo t' := by
  induction hw with
  | outside => cases hok
  | reject => cases hok
  | tooLong => cases hok
  | unallocated => cases hok
  | @write lo addr s s' t haddr hcheck =>
      rw [checkAllocation_data hcheck]
      exact hr.write hs haddr
  | splitFail => cases hok
  | @split h lo addr s s' t result left' right' _ hcheck hlt hgt _ _ ihl ihr =>
      have hdata := checkAllocation_data hcheck
      rw [hdata, hin.ptrAdd_eq] at hgt
      rw [hdata] at ihl ihr
      refine .split rfl (ihl rfl hr.force.1 (hs.left.take hlt hgt) ?_)
        (ihr hok hr.force.2 ?_ ?_)
      · simpa only [length_take_split rfl hgt] using hin.splitLeft hlt
      · exact hs.right.drop hlt hgt
      · simpa only [List.length_drop] using hin.splitRight hlt hgt
  | @left h lo addr s s' t result left' haddr hcheck hgt _ ih =>
      have hdata := checkAllocation_data hcheck
      rw [hdata, hin.ptrAdd_eq] at hgt
      rw [hdata] at ih
      have hle := Nat.le_of_not_lt hgt
      exact .split rfl (ih hok hr.force.1 hs.left (hin.left haddr.2 hle))
        (hr.force.2.congr (hs.right.outside_of_disjoint (Or.inl hle)))
  | @right h lo addr s s' t result right' haddr hcheck _ ih =>
      have hdata := checkAllocation_data hcheck
      rw [hdata] at ih
      exact .split rfl (hr.force.1.congr (hs.left.outside_of_disjoint (Or.inr haddr.1)))
        (ih hok hr.force.2 hs.right (hin.right haddr.1))

/-- A store into an allocated block that returns. -/
theorem StoreWalk.frames_block {c h lo addr : ℕ} {s : StoreState} {t t' : NodePtr}
    {result : Except Fault Unit} {flat flat' : Flat} {issued : ℕ → Prop}
    (hw : StoreWalk c h lo addr s t result t') (hok : result = .ok ()) (hc : 0 < c)
    (hf : Frames c flat issued h lo t) (hstatus : t.force.1.status ≠ .unallocated)
    (hs : Flat.Stored c h lo addr s.data flat flat') (hin : InNode c h lo addr s.data.length) :
    (∃ a, (lo ≤ a ∧ a < lo + span c h) ∧ issued a) ∧ Frames c flat' issued h lo t' := by
  have hpos := span_pos hc h
  have hstatus' := hw.status_eq ▸ hstatus
  have hissued : (∀ a, lo ≤ a → a < lo + span c h → issued a) ∧ Renders c flat h lo t := by
    cases hf with
    | null => exact absurd rfl hstatus
    | bare hfree => exact absurd hfree hstatus
    | block _ hall hr => exact ⟨hall, hr⟩
    | path hfree => exact absurd hfree hstatus
  refine ⟨⟨lo, ⟨le_rfl, by omega⟩, hissued.1 lo le_rfl (by omega)⟩, ?_⟩
  have hr := hw.renders hok hissued.2 hs hin
  cases t' with
  | null => cases hr
  | node n' l' r' => exact .block hstatus' hissued.1 hr

/-- A store that returns keeps the flat memory. -/
theorem StoreWalk.frames {c h lo addr : ℕ} {s : StoreState} {t t' : NodePtr}
    {result : Except Fault Unit} {flat flat' : Flat} {issued : ℕ → Prop}
    (hw : StoreWalk c h lo addr s t result t') (hok : result = .ok ()) (hc : 0 < c)
    (hdid : s.didAlloc = false) (hf : Frames c flat issued h lo t)
    (hs : Flat.Stored c h lo addr s.data flat flat') (hin : InNode c h lo addr s.data.length) :
    (∃ a, (lo ≤ a ∧ a < lo + span c h) ∧ issued a) ∧ Frames c flat' issued h lo t' := by
  induction hw with
  | outside => cases hok
  | reject => cases hok
  | tooLong => cases hok
  | unallocated => cases hok
  | @write lo addr s s' t haddr hcheck hlen hyes =>
      by_cases hstatus : t.force.1.status = .unallocated
      · obtain rfl : s = s' := by simpa [checkAllocation, hstatus] using hcheck
        simp [hdid] at hyes
      · exact (StoreWalk.write haddr hcheck hlen hyes).frames_block rfl hc hf hstatus hs hin
  | splitFail => cases hok
  | @split h lo addr s s' t result left' right' haddr hcheck hlt hgt hleft hright ihl ihr =>
      by_cases hstatus : t.force.1.status = .unallocated
      · obtain rfl : s = s' := by simpa [checkAllocation, hstatus] using hcheck
        obtain ⟨hn, hl, hr⟩ := hf.force hstatus
        rw [hin.ptrAdd_eq] at hgt
        obtain ⟨⟨a, ha, hissued⟩, hl'⟩ := ihl rfl hdid hl (hs.left.take hlt hgt)
          (by simpa only [length_take_split rfl hgt] using hin.splitLeft hlt)
        obtain ⟨-, hr'⟩ := ihr hok hdid hr (hs.right.drop hlt hgt)
          (by simpa only [List.length_drop] using hin.splitRight hlt hgt)
        have hsome : ∃ a, (lo ≤ a ∧ a < lo + span c (h + 1)) ∧ issued a :=
          ⟨a, by rw [span_succ]; omega, hissued⟩
        exact ⟨hsome, .path hstatus rfl hsome hl' hr'⟩
      · exact (StoreWalk.split haddr hcheck hlt hgt hleft hright).frames_block hok hc hf hstatus hs
          hin
  | @left h lo addr s s' t result left' haddr hcheck hgt hleft ih =>
      by_cases hstatus : t.force.1.status = .unallocated
      · obtain rfl : s = s' := by simpa [checkAllocation, hstatus] using hcheck
        obtain ⟨hn, hl, hr⟩ := hf.force hstatus
        rw [hin.ptrAdd_eq] at hgt
        have hle := Nat.le_of_not_lt hgt
        obtain ⟨⟨a, ha, hissued⟩, hl'⟩ := ih hok hdid hl hs.left (hin.left haddr.2 hle)
        have hsome : ∃ a, (lo ≤ a ∧ a < lo + span c (h + 1)) ∧ issued a :=
          ⟨a, by rw [span_succ]; omega, hissued⟩
        exact ⟨hsome, .path hstatus rfl hsome hl'
          (hr.congr (hs.right.outside_of_disjoint (Or.inl hle)) fun _ => id)⟩
      · exact (StoreWalk.left haddr hcheck hgt hleft).frames_block hok hc hf hstatus hs hin
  | @right h lo addr s s' t result right' haddr hcheck hright ih =>
      by_cases hstatus : t.force.1.status = .unallocated
      · obtain rfl : s = s' := by simpa [checkAllocation, hstatus] using hcheck
        obtain ⟨hn, hl, hr⟩ := hf.force hstatus
        obtain ⟨⟨a, ha, hissued⟩, hr'⟩ := ih hok hdid hr hs.right (hin.right haddr.1)
        have hsome : ∃ a, (lo ≤ a ∧ a < lo + span c (h + 1)) ∧ issued a :=
          ⟨a, by rw [span_succ]; omega, hissued⟩
        exact ⟨hsome, .path hstatus rfl hsome
          (hl.congr (hs.left.outside_of_disjoint (Or.inr haddr.1)) fun _ => id) hr'⟩
      · exact (StoreWalk.right haddr hcheck hright).frames_block hok hc hf hstatus hs hin

end Borealis
