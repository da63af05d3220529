import Borealis.Executor.FreeExact
import Borealis.Executor.FlatMemory
import Borealis.Executor.LoadInt

/-!
# The heap functions

`malloc`, `calloc`, `realloc` and `free` in `Executor/FunctionCalls.cpp`.  Each allocating function
asks `MallocMemory` for a size that it takes from its first argument; `realloc`, which passes its
arguments on to `malloc`, takes it from the pointer.

## Strategy

What `MallocMemory` does to loads is read off the walk of the allocation: the bytes of the new node
report its state, the bytes of live blocks are reported as before, and nothing else can be read
that could not be read before (`descend_alloc`).
-/

namespace Borealis

open Lib

/-! ## The functions -/

/-- The fields of a `GenericValue` that the heap functions read: a pointer, and an integer of any
width. -/
structure GenericValue where
  pointerVal : ℕ
  intVal : ℕ

/-- `getLimitedValue`: an integer, or the largest number of 64 bits. -/
def getLimitedValue (value : ℕ) : ℕ :=
  min value (2 ^ 64 - 1)

/-- The size that is asked for: the first argument times the size of what the result points to. -/
def scaledSize (sz : ℕ) (arg : GenericValue) : ℕ :=
  sz * getLimitedValue arg.intVal % 2 ^ 64

namespace MemorySimulator

variable (m : MemorySimulator)

/-- `executeMalloc`.  The judicator may predict that a nullable malloc returns null. -/
def executeMalloc (predictedNull : Bool) (sz : ℕ) (size : GenericValue) :
    Except Fault ℕ × MemorySimulator :=
  if predictedNull then (.ok 0, m) else m.mallocMemory (scaledSize sz size) .uninit

/-- `executeCalloc`: the second argument is not read. -/
def executeCalloc (sz : ℕ) (count _size : GenericValue) : Except Fault ℕ × MemorySimulator :=
  m.mallocMemory (scaledSize sz count) .zero

/-- `executeRealloc`: its first argument is the first one of `executeMalloc`. -/
def executeRealloc (predictedNull : Bool) (sz : ℕ) (ptr _size : GenericValue) :
    Except Fault ℕ × MemorySimulator :=
  m.executeMalloc predictedNull sz ptr

/-- `executeFree`. -/
def executeFree (ptr : GenericValue) : Except Fault Unit × MemorySimulator :=
  m.freeMemory ptr.pointerVal

end MemorySimulator

/-! ## Loads after an allocation -/

/-- A load that finds something to read. -/
def Accessible (result : Except Fault IntervalState) : Prop :=
  ∃ i, result = .ok i ∧ (i.memState ≠ .unknown ∨ ∃ chunk offset, i.data = some (some chunk, offset))

/-- What a block of the state reports before anything is stored. -/
def MemoryState.reading : MemoryState → Option Reading
  | .memset => some (.memset 0)
  | .uninit => some .uninit
  | .unknown => none

section Alloc

variable {c size k p h lo a : ℕ} {state : MemoryState} {status : MemoryStatus}

theorem not_accessible_bare {n : SegmentNode} (hn : n.state = .unknown) (hchunk : n.chunk = none) :
    ¬ Accessible (peek c h lo (.node n .null .null) a) := by
  intro hacc
  obtain ⟨i, hi, hread⟩ := hacc
  cases h with
  | zero =>
      rw [peek_chunk hn, hchunk] at hi
      obtain rfl := Except.ok.inj hi
      rcases hread with hstate | ⟨chunk, offset, hdata⟩
      · exact hstate rfl
      · cases hdata
  | succ h =>
      rcases Nat.lt_or_ge a (lo + span c h) with ha | ha
      · rw [peek_left hn ha, peek_null] at hi
        cases hi
      · rw [peek_right hn ha, peek_null] at hi
        cases hi

theorem accessible_of_known {n : SegmentNode} {l r : NodePtr} (hn : n.state ≠ .unknown) :
    Accessible (peek c h lo (.node n l r) a) :=
  ⟨_, peek_known hn, Or.inl hn⟩

/-- A child that takes its state from its parent gives nothing to read that the parent does not. -/
theorem accessible_of_derive {n : SegmentNode} {l : NodePtr}
    (hn : n.state = .unknown) (hacc : Accessible (peek c h lo (l.derive n) a)) :
    Accessible (peek c h lo l a) := by
  cases l with
  | null => exact absurd hacc (not_accessible_bare hn rfl)
  | node _ _ _ => exact hacc

/-- The bytes of an allocated node report its state. -/
theorem peek_alloc (hc : 0 < c) (hlevel : Level c size k) (hstate : state ≠ .unknown)
    (hnode : IsNode c h lo k p) (t : NodePtr) (hlo : p ≤ a) (hhi : a < p + span c k) :
    (peek c h lo (descend (allocTraverser state status size) c h lo () p t).2 a).map
      IntervalState.reading = .ok state.reading := by
  refine (descend_alloc (R := fun h lo _ t' => (peek c h lo t' a).map IntervalState.reading =
    .ok state.reading) hc hlevel ?here ?left ?right hnode t).2
  case here =>
    intro t
    rw [peek_known hstate]
    cases state with
    | memset => rfl
    | uninit => rfl
    | unknown => exact absurd rfl hstate
  case left =>
    intro h lo t l' hn ih
    have hend := hn.end_le
    rw [peek_left rfl (by omega)]
    exact ih
  case right =>
    intro h lo t r' hn ih
    have hbase := hn.le_base
    rw [peek_right rfl (by omega)]
    exact ih

/-- A load goes to the child with the allocated node. -/
theorem peek_owned_left {t : NodePtr} (ha : a < lo + span c h) (hstate : t.force.1.state = .unknown)
    (howned : owners c h lo t.force.2.1 a ≠ []) :
    peek c h lo (t.force.2.1.derive t.force.1) a = peek c (h + 1) lo t a := by
  cases t with
  | null => exact absurd owners_null howned
  | node n l r =>
      rw [peek_left (n := n) hstate ha]
      cases l with
      | null => exact absurd owners_null howned
      | node _ _ _ => rfl

theorem peek_owned_right {t : NodePtr} (ha : lo + span c h ≤ a)
    (hstate : t.force.1.state = .unknown)
    (howned : owners c h (lo + span c h) t.force.2.2 a ≠ []) :
    peek c h (lo + span c h) (t.force.2.2.derive t.force.1) a = peek c (h + 1) lo t a := by
  cases t with
  | null => exact absurd owners_null howned
  | node n l r =>
      rw [peek_right (n := n) hstate ha]
      cases r with
      | null => exact absurd owners_null howned
      | node _ _ _ => rfl

/-- The bytes of other allocated nodes are reported as before. -/
theorem peek_alloc_other (hc : 0 < c) (hlevel : Level c size k) (hnode : IsNode c h lo k p)
    (t : NodePtr) (hlo : lo ≤ a) (hhi : a < lo + span c h) (hout : ¬ (p ≤ a ∧ a < p + span c k))
    (hclear : Clear c h lo t a) (howned : owners c h lo t a ≠ [])
    (hfree : ∀ b, p ≤ b → b < p + span c k → owners c h lo t b = []) :
    peek c h lo (descend (allocTraverser state status size) c h lo () p t).2 a =
      peek c h lo t a := by
  refine (descend_alloc (R := fun h lo t t' => lo ≤ a → a < lo + span c h → Clear c h lo t a →
    owners c h lo t a ≠ [] → (∀ b, p ≤ b → b < p + span c k → owners c h lo t b = []) →
    peek c h lo t' a = peek c h lo t a)
    hc hlevel ?here ?left ?right hnode t).2 hlo hhi hclear howned hfree
  case here =>
    intro t hlo hhi
    exact absurd ⟨hlo, hhi⟩ hout
  case left =>
    intro h lo t l' hn ih hlo hhi hclear howned hfree
    have hbase := hn.le_base
    have hend := hn.end_le
    have hk := span_pos hc k
    have hnil := (owners_eq_nil_left (by omega) (hfree p le_rfl (by omega))).1
    rcases Nat.lt_or_ge a (lo + span c h) with ha | ha
    · rw [owners_left ha, hnil, List.nil_append] at howned
      obtain ⟨hstate, hbelow⟩ := (clear_left ha).mp hclear
      rw [peek_left rfl ha, ih hlo ha (clear_derive.mpr hbelow) (by rwa [owners_derive]) ?_]
      · exact peek_owned_left ha (hstate howned) howned
      · intro b hb hb'
        rw [owners_derive]
        exact (owners_eq_nil_left (by omega) (hfree b hb hb')).2
    · rw [owners_right ha, hnil, List.nil_append] at howned
      rw [peek_right rfl ha]
      exact peek_owned_right ha (((clear_right ha).mp hclear).1 howned) howned
  case right =>
    intro h lo t r' hn ih hlo hhi hclear howned hfree
    have hbase := hn.le_base
    have hk := span_pos hc k
    rw [span_succ] at hhi
    have hnil := (owners_eq_nil_right hbase (hfree p le_rfl (by omega))).1
    rcases Nat.lt_or_ge a (lo + span c h) with ha | ha
    · rw [owners_left ha, hnil, List.nil_append] at howned
      rw [peek_left rfl ha]
      exact peek_owned_left ha (((clear_left ha).mp hclear).1 howned) howned
    · rw [owners_right ha, hnil, List.nil_append] at howned
      obtain ⟨hstate, hbelow⟩ := (clear_right ha).mp hclear
      rw [peek_right rfl ha, ih ha (by omega) (clear_derive.mpr hbelow) (by rwa [owners_derive]) ?_]
      · exact peek_owned_right ha (hstate howned) howned
      · intro b hb hb'
        rw [owners_derive]
        exact (owners_eq_nil_right (by omega) (hfree b hb hb')).2

/-- What can be read in a child that was given its parent's state can be read in the parent. -/
theorem accessible_left {t : NodePtr} (ha : a < lo + span c h)
    (hacc : Accessible (peek c h lo (t.force.2.1.derive t.force.1) a)) :
    Accessible (peek c (h + 1) lo t a) := by
  cases t with
  | null =>
      rw [peek_null, ← @peek_null c h lo]
      exact accessible_of_derive rfl hacc
  | node n l r =>
      by_cases hstate : n.state = .unknown
      · rw [peek_left hstate ha]
        exact accessible_of_derive hstate hacc
      · exact accessible_of_known hstate

theorem accessible_right {t : NodePtr} (ha : lo + span c h ≤ a)
    (hacc : Accessible (peek c h (lo + span c h) (t.force.2.2.derive t.force.1) a)) :
    Accessible (peek c (h + 1) lo t a) := by
  cases t with
  | null =>
      rw [peek_null, ← @peek_null c h (lo + span c h)]
      exact accessible_of_derive rfl hacc
  | node n l r =>
      by_cases hstate : n.state = .unknown
      · rw [peek_right hstate ha]
        exact accessible_of_derive hstate hacc
      · exact accessible_of_known hstate

/-- Nothing else can be read than before. -/
theorem accessible_alloc (hc : 0 < c) (hlevel : Level c size k) (hnode : IsNode c h lo k p)
    (t : NodePtr) (hlo : lo ≤ a) (hhi : a < lo + span c h) (hout : ¬ (p ≤ a ∧ a < p + span c k))
    (hacc : Accessible
      (peek c h lo (descend (allocTraverser state status size) c h lo () p t).2 a)) :
    Accessible (peek c h lo t a) := by
  refine (descend_alloc (R := fun h lo t t' => lo ≤ a → a < lo + span c h →
    Accessible (peek c h lo t' a) → Accessible (peek c h lo t a))
    hc hlevel ?here ?left ?right hnode t).2 hlo hhi hacc
  case here =>
    intro t hlo hhi
    exact absurd ⟨hlo, hhi⟩ hout
  case left =>
    intro h lo t l' hn ih hlo hhi hacc
    rcases Nat.lt_or_ge a (lo + span c h) with ha | ha
    · rw [peek_left rfl ha] at hacc
      exact accessible_left ha (ih hlo ha hacc)
    · rw [peek_right rfl ha] at hacc
      exact accessible_right ha hacc
  case right =>
    intro h lo t r' hn ih hlo hhi hacc
    rw [span_succ] at hhi
    rcases Nat.lt_or_ge a (lo + span c h) with ha | ha
    · rw [peek_left rfl ha] at hacc
      exact accessible_left ha hacc
    · rw [peek_right rfl ha] at hacc
      exact accessible_right ha (ih ha (by omega) hacc)

end Alloc

/-! ## What C asks for -/

/-- A load of a byte in the memory of a simulator. -/
def MemorySimulator.get (m : MemorySimulator) (a : ℕ) : Except Fault IntervalState :=
  (m.tree.get a).1

variable {L : Layout} {s : Session}

/-- In the memory `m`, there is a new block of `n` bytes at `p` which reads as `content` says. -/
structure Session.NewBlock (L : Layout) (s : Session) (m : MemorySimulator) (p n : ℕ)
    (content : ℕ → Reading) : Prop where
  fresh : ∀ a, p ≤ a → a < p + n → ∀ A ∈ s.live, ¬ A.Covers a
  loads : ∀ j < n, (m.get (p + j)).map IntervalState.reading = .ok (some (content j))
  stores : ∀ a data, 0 < data.length → p ≤ a → a + data.length ≤ p + n →
    (m.store a data).1 = .ok ()
  no_more_loads : ∀ a, ¬ (p ≤ a ∧ a < p + n) → Accessible (m.get a) → Accessible (s.get a)
  no_more_stores : ∀ a data, 0 < data.length → Layout.start ≤ a → a + data.length ≤ L.stop →
    (m.store a data).1 = .ok () → ∀ b, a ≤ b → b < a + data.length →
      (p ≤ b ∧ b < p + n) ∨ ∃ A ∈ s.live, A.Contains b
  others : ∀ A ∈ s.live, ∀ a, A.Covers a → m.get a = s.get a

/-- An allocating function gives a new block of `n` bytes, or is out of memory if no block can be so
large. -/
def Session.GivesBlock (L : Layout) (s : Session) (result : Except Fault ℕ × MemorySimulator)
    (n : ℕ) (content : ℕ → Reading) : Prop :=
  (L.TooBig n → ∃ size, result = (.error (.outOfMemory size), s.sim)) ∧
    (¬ L.TooBig n → ∃ p, result.1 = .ok p ∧ s.NewBlock L result.2 p n content)

/-- The bytes of the heap block at `p`, and behind them memory that is not initialized. -/
def Session.oldContent (s : Session) (p j : ℕ) : Reading :=
  match s.live.find? fun A => A.base = p ∧ A.status = .malloc with
  | none => .uninit
  | some A =>
    if A.amount ≤ j then .uninit
    else
      match s.get (p + j) with
      | .error _ => .uninit
      | .ok i => i.reading.getD .uninit

/-- `realloc`: a new block with the old bytes, and no store to the old block is accepted. -/
def Session.Reallocates (L : Layout) (s : Session) (result : Except Fault ℕ × MemorySimulator)
    (p n : ℕ) : Prop :=
  s.GivesBlock L result n (s.oldContent p) ∧
    (¬ L.TooBig n → ∀ A ∈ s.live, A.base = p → A.status = .malloc →
      ∀ a data, 0 < data.length → A.base ≤ a → a + data.length ≤ A.base + A.amount →
        (result.2.store a data).1 ≠ .ok ())

/-- The allocator is asked for `amount` bytes where C asks for `n`: both are too large, or they are
the same and the allocator sets aside exactly as many bytes, in memory that is free. -/
def Session.Serves (L : Layout) (s : Session) (amount n : ℕ) (fill : MallocFill) : Prop :=
  (L.TooBig n ∧ L.TooBig amount) ∨
    (amount = n ∧ s.Fresh L (.mallocMemory n fill) ∧
      calcRealMemoryAmount n L.chunkSize = .ok n)

/-! ## The allocator -/

theorem Session.mallocMemory_eq {amount : ℕ} {fill : MallocFill} {sim : MemorySimulator}
    {A : Allocation}
    (h : s.perform (.mallocMemory amount fill) = (.ok (), { s with sim }.issue A)) :
    s.sim.mallocMemory amount fill = (.ok A.base, sim) := by
  simp only [perform, settle] at h
  split at h
  · have hfst := congrArg Prod.fst h
    cases hfst
  · next base hbase =>
      have hsession := congrArg Prod.snd h
      have hsim : (s.sim.mallocMemory amount fill).2 = sim := congrArg Session.sim hsession
      have hlive := List.cons.inj (congrArg Session.live hsession)
      have haddr : base = A.base := congrArg Allocation.base hlive.1
      exact Prod.ext (hbase.trans (congrArg Except.ok haddr)) hsim

theorem MallocFill.memState_ne (fill : MallocFill) : fill.memState ≠ .unknown := by
  cases fill <;> decide

/-- The block that `MallocMemory` sets aside: a node of exactly as many bytes as it is asked for,
over which there is no other block. -/
theorem Session.Cleared.granted (h : s.Cleared L) {n : ℕ} {fill : MallocFill}
    (hfresh : s.Fresh L (.mallocMemory n fill)) (hbig : ¬ L.TooBig n)
    (hexact : calcRealMemoryAmount n L.chunkSize = .ok n) :
    ∃ k A sim, s.sim.mallocMemory n fill = (.ok A.base, sim) ∧
      ({ s with sim }.issue A).Tracked L ∧ A.amount = n ∧ A.real = n ∧ n = span L.chunkSize k ∧
      Level L.chunkSize n k ∧ IsNode L.chunkSize L.power Layout.start k A.base ∧
      sim.tree.root = (descend (allocTraverser fill.memState .malloc n) L.chunkSize L.power
        Layout.start () A.base s.root).2 ∧
      (∀ B ∈ s.live, A.Apart B) ∧
      ∀ a, A.base ≤ a → a < A.base + span L.chunkSize k →
        Borealis.owners L.chunkSize L.power Layout.start s.root a = [] := by
  obtain ⟨k, sim, hlevel, hcalc, -, hnode, hperform, hsim, hroot, hapart⟩ :=
    h.tracked.grant (show s.request (.mallocMemory n fill) = some _ from rfl) hfresh hbig
  have hn : n = span L.chunkSize k := Except.ok.inj (hexact.symm.trans hcalc)
  have hmalloc := Session.mallocMemory_eq hperform
  have htracked := h.tracked.perform_request
    (show s.request (.mallocMemory n fill) = some _ from rfl) hfresh
  rw [hperform] at htracked
  refine ⟨k, _, sim, hmalloc, htracked, rfl, hn.symm, hn, hlevel, hnode, hroot, hapart, ?_⟩
  intro a hlo hhi
  exact h.tracked.owners_eq_nil_of_apart hapart ⟨hlo, hhi⟩ (hnode.le_base.trans hlo)
    (lt_of_lt_of_le hhi hnode.end_le)

/-- What `MallocMemory` gives where it sets aside exactly the bytes it is asked for. -/
theorem Session.Cleared.mallocMemory (h : s.Cleared L) {n : ℕ} {fill : MallocFill}
    (hfresh : s.Fresh L (.mallocMemory n fill)) (hbig : ¬ L.TooBig n)
    (hexact : calcRealMemoryAmount n L.chunkSize = .ok n) {content : ℕ → Reading}
    (hcontent : ∀ j, fill.memState.reading = some (content j)) :
    ∃ p, (s.sim.mallocMemory n fill).1 = .ok p ∧
      s.NewBlock L (s.sim.mallocMemory n fill).2 p n content := by
  obtain ⟨k, A, sim, hmalloc, htracked, hamount, hreal, hn, hlevel, hnode, hroot, hapart, hfree⟩ :=
    h.granted hfresh hbig hexact
  have hend : A.base + span L.chunkSize k ≤ L.stop := hnode.end_le
  have hbase : Layout.start ≤ A.base := hnode.le_base
  have hget : ∀ a, Layout.start ≤ a → a < L.stop →
      sim.get a = peek L.chunkSize L.power Layout.start sim.tree.root a := fun a hlo hhi =>
    Session.get_eq htracked.layout hlo hhi
  have hstore : ∀ a data, 0 < data.length → Layout.start ≤ a → a + data.length ≤ L.stop →
      ((sim.store a data).1 = .ok () ↔
        ({ s with sim }.issue A).InBlocks a data.length) := by
    intro a data hpos hlo hhi
    have hperformed := (@Session.perform_store ({ s with sim }.issue A) a data).1
    rw [← (htracked.store_acceptedIf hpos hlo hhi).ok_iff, hperformed]
    rfl
  rw [hmalloc]
  refine ⟨A.base, rfl, ?fresh, ?loads, ?stores, ?no_more_loads, ?no_more_stores, ?others⟩
  case fresh =>
    intro a hlo hhi B hB
    exact Allocation.not_covers (hapart B hB) ⟨hlo, by omega⟩
  case loads =>
    intro j hj
    rw [hget _ (by omega) (by omega), hroot, ← hcontent j]
    exact peek_alloc L.pos hlevel fill.memState_ne hnode s.root (by omega) (by omega)
  case stores =>
    intro a data hpos hlo hhi
    apply (hstore a data hpos (by omega) (by omega)).mpr
    intro b hb hb'
    exact ⟨A, List.mem_cons_self, by omega, by omega⟩
  case no_more_loads =>
    intro a hout hacc
    by_cases hin : Layout.start ≤ a ∧ a < L.stop
    · rw [hget a hin.1 hin.2, hroot] at hacc
      rw [Session.get_eq h.tracked.layout hin.1 hin.2]
      exact accessible_alloc L.pos hlevel hnode s.root hin.1 hin.2 (by rwa [← hn]) hacc
    · have herror : sim.get a = .error .assertion := Session.get_outside htracked.layout hin
      obtain ⟨i, hi, -⟩ := hacc
      rw [herror] at hi
      cases hi
  case no_more_stores =>
    intro a data hpos hlo hhi hok b hb hb'
    obtain ⟨B, hB, hcontains⟩ := (hstore a data hpos hlo hhi).mp hok b hb hb'
    rcases List.mem_cons.mp hB with rfl | hB
    · exact Or.inl ⟨hcontains.1, by have := hcontains.2; omega⟩
    · exact Or.inr ⟨B, hB, hcontains⟩
  case others =>
    intro B hB a hcovers
    obtain ⟨hin, howner⟩ := h.tracked.owner_mem hB hcovers
    rw [hget a hin.1 hin.2, hroot, Session.get_eq h.tracked.layout hin.1 hin.2]
    refine peek_alloc_other L.pos hlevel hnode s.root hin.1 hin.2 ?_ (h.clear a hin.1 hin.2)
      (List.ne_nil_of_mem howner) hfree
    intro hinside
    rw [hfree a hinside.1 hinside.2] at howner
    exact absurd howner List.not_mem_nil

/-- An allocating function gives what C asks for where the allocator serves it. -/
theorem Session.Cleared.givesBlock (h : s.Cleared L) {amount n : ℕ} {fill : MallocFill}
    (hserves : s.Serves L amount n fill) {content : ℕ → Reading}
    (hcontent : ∀ j, fill.memState.reading = some (content j)) :
    s.GivesBlock L (s.sim.mallocMemory amount fill) n content := by
  have hout : ∀ amount, L.TooBig amount →
      s.sim.mallocMemory amount fill = (.error (.outOfMemory amount), s.sim) := by
    intro amount hbig
    have hrefused := @allocateIn_tooBig L s.sim s.sim.mallocStart s.sim.currentMallocOffset amount
      fill.memState .malloc h.tracked.layout hbig
    unfold MemorySimulator.mallocMemory
    rw [hrefused]
  rcases hserves with ⟨hbig, hbig'⟩ | ⟨rfl, hfresh, hexact⟩
  · exact ⟨fun _ => ⟨amount, hout amount hbig'⟩, fun hsmall => absurd hbig hsmall⟩
  · exact ⟨fun hbig => ⟨amount, hout amount hbig⟩,
      fun hsmall => h.mallocMemory hfresh hsmall hexact hcontent⟩

/-! ## The agreement with C -/

/-- No block starts at the null pointer. -/
theorem Session.Tracked.base_ne_zero (h : s.Tracked L) {A : Allocation} (hA : A ∈ s.live) :
    A.base ≠ 0 := by
  obtain ⟨⟨k, -, -, hnode⟩, -⟩ := h.block A hA
  have hbase : Layout.start ≤ A.base := hnode.le_base
  have hstart : 0 < Layout.start := by decide
  omega

theorem Session.Tracked.oldContent_null (h : s.Tracked L) (j : ℕ) :
    s.oldContent 0 j = .uninit := by
  have hnone : (s.live.find? fun A => A.base = 0 ∧ A.status = .malloc) = none := by
    rw [List.find?_eq_none]
    intro A hA hmatch
    exact h.base_ne_zero hA (of_decide_eq_true hmatch).1
  unfold oldContent
  rw [hnone]

/-- `free`: nothing happens to the null pointer, and any other pointer is released exactly. -/
def Session.Frees (L : Layout) (s : Session) (result : Except Fault Unit × MemorySimulator)
    (p : ℕ) : Prop :=
  (p = 0 → result = (.ok (), s.sim)) ∧
    (p ≠ 0 → s.FreesExactly L p .malloc ∧
      result = ((s.sim.tree.free p .malloc).1,
        { s.sim with tree := (s.sim.tree.free p .malloc).2 }))

theorem Session.Cleared.frees (h : s.Cleared L) {ptr : GenericValue}
    (hlive : s.Releasable ptr.pointerVal .malloc) :
    s.Frees L (s.sim.executeFree ptr) ptr.pointerVal := by
  obtain ⟨A, hA, hbase, hstatus⟩ := hlive
  obtain ⟨⟨k, -, hreal, hnode⟩, -⟩ := h.tracked.block A hA
  have hlo : Layout.start ≤ A.base := hnode.le_base
  have hend : A.base + span L.chunkSize k ≤ L.stop := hnode.end_le
  have hpos := span_pos L.pos k
  refine ⟨fun hnull => absurd (hbase.trans hnull) (h.tracked.base_ne_zero hA), fun _ => ?_⟩
  refine ⟨h.freesExactly ⟨A, hA, hbase, hstatus⟩, ?_⟩
  have hpointer : s.sim.isAPointer ptr.pointerVal = true :=
    h.tracked.layout.isAPointer (by omega) (by omega)
  unfold MemorySimulator.executeFree MemorySimulator.freeMemory MemorySimulator.release
  rw [hpointer]
  rfl

/-- After a request the old blocks are still live. -/
theorem Session.Tracked.malloc_keeps (h : s.Tracked L) {amount : ℕ} {fill : MallocFill}
    (hfresh : s.Fresh L (.mallocMemory amount fill)) :
    ∃ s' : Session, s'.sim = (s.sim.mallocMemory amount fill).2 ∧ s'.Tracked L ∧
      ∀ A ∈ s.live, A ∈ s'.live := by
  refine ⟨(s.perform (.mallocMemory amount fill)).2, Session.settle_sim fun _ _ => rfl,
    h.perform_request (show s.request (.mallocMemory amount fill) = some _ from rfl) hfresh,
    fun A hA => ?_⟩
  by_cases hbig : L.TooBig amount
  · rw [Session.perform_tooBig h.layout
      (show s.request (.mallocMemory amount fill) = some _ from rfl) hbig]
    exact hA
  · obtain ⟨k, sim, -, -, -, -, hperform, -⟩ :=
      h.grant (show s.request (.mallocMemory amount fill) = some _ from rfl) hfresh hbig
    rw [hperform]
    exact List.mem_cons_of_mem _ hA

/-- `realloc` leaves the old block where it is. -/
theorem Session.Tracked.not_reallocates (h : s.Tracked L) (predictedNull : Bool) {sz : ℕ}
    {ptr size : GenericValue} (hfresh : s.Fresh L (.mallocMemory (scaledSize sz ptr) .uninit))
    (hsmall : ¬ L.TooBig size.intVal) {A : Allocation} (hA : A ∈ s.live)
    (hbase : A.base = ptr.pointerVal) (hstatus : A.status = .malloc) (hpos : 0 < A.amount) :
    ¬ s.Reallocates L (s.sim.executeRealloc predictedNull sz ptr size) ptr.pointerVal
      size.intVal := by
  intro hrealloc
  have hrefused := hrealloc.2 hsmall A hA hbase hstatus A.base [0] (by decide) le_rfl
    (by rw [List.length_singleton]; omega)
  have hafter : ∃ s' : Session, s'.sim = (s.sim.executeRealloc predictedNull sz ptr size).2 ∧
      s'.Tracked L ∧ ∀ A ∈ s.live, A ∈ s'.live := by
    cases predictedNull with
    | true => exact ⟨s, rfl, h, fun _ hB => hB⟩
    | false => exact h.malloc_keeps hfresh
  obtain ⟨s', hsim, htracked, hlive⟩ := hafter
  have hblocks : s'.InBlocks A.base [(0 : UInt8)].length := by
    intro b hb hb'
    rw [List.length_singleton] at hb'
    exact ⟨A, hlive A hA, hb, by omega⟩
  obtain ⟨hlo, hhi⟩ := hblocks.mem htracked (by decide)
  have hok := (htracked.store_acceptedIf (by decide) hlo hhi).ok_iff.mpr hblocks
  rw [(s'.perform_store [0]).1, hsim] at hok
  exact hrefused hok

/-- **The heap functions** give what C asks for where the allocator serves the request: `malloc` for
the bytes that it is asked for, `calloc` if it is asked for the product of its arguments, `realloc`
of the null pointer if it is asked for its second argument, and `free` of a live block of the heap.
A `realloc` of a live block never does. -/
theorem heap_functions_agree (L : Layout) {s : Session}
    (hrun : Reachable Session.step (Session.Fresh L) (Session.init L) s) :
    (∀ sz size, s.Serves L (scaledSize sz size) (sz * size.intVal) .uninit →
      s.GivesBlock L (s.sim.executeMalloc false sz size) (sz * size.intVal) fun _ => .uninit) ∧
    (∀ sz count size, s.Serves L (scaledSize sz count) (count.intVal * size.intVal) .zero →
      s.GivesBlock L (s.sim.executeCalloc sz count size) (count.intVal * size.intVal)
        fun _ => .memset 0) ∧
    (∀ sz ptr size, ptr.pointerVal = 0 →
      s.Serves L (scaledSize sz ptr) size.intVal .uninit →
      s.Reallocates L (s.sim.executeRealloc false sz ptr size) ptr.pointerVal size.intVal) ∧
    (∀ predictedNull sz ptr size, s.Fresh L (.mallocMemory (scaledSize sz ptr) .uninit) →
      ¬ L.TooBig size.intVal → ∀ A ∈ s.live, A.base = ptr.pointerVal → A.status = .malloc →
      0 < A.amount →
      ¬ s.Reallocates L (s.sim.executeRealloc predictedNull sz ptr size) ptr.pointerVal
        size.intVal) ∧
    ∀ ptr, s.Releasable ptr.pointerVal .malloc →
      s.Frees L (s.sim.executeFree ptr) ptr.pointerVal := by
  have h := Session.cleared_of_reachable hrun
  refine ⟨?malloc, ?calloc, ?realloc, ?reallocLive, ?free⟩
  case malloc =>
    intro sz size hserves
    exact h.givesBlock hserves fun _ => rfl
  case calloc =>
    intro sz count size hserves
    exact h.givesBlock hserves fun _ => rfl
  case realloc =>
    intro sz ptr size hnull hserves
    rw [hnull]
    refine ⟨h.givesBlock hserves fun j => ?_, fun _ A hA hbase => ?_⟩
    · rw [h.tracked.oldContent_null j]
      rfl
    · exact absurd hbase (h.tracked.base_ne_zero hA)
  case reallocLive =>
    intro predictedNull sz ptr size hfresh hsmall A hA hbase hstatus hpos
    exact h.tracked.not_reallocates predictedNull hfresh hsmall hA hbase hstatus hpos
  case free =>
    intro ptr hlive
    exact h.frees hlive

/-- A `malloc` of eight bytes. -/
theorem heap_functions_agree_eightChunks :
    (Session.init eightChunks).GivesBlock eightChunks
      ((Session.init eightChunks).sim.executeMalloc false 1 ⟨0, 8⟩) 8 fun _ => .uninit := by
  refine (heap_functions_agree eightChunks Reachable.init).1 1 ⟨0, 8⟩ (Or.inr ⟨rfl, ?_, rfl⟩)
  exact Session.placed_of_room rfl (show _ = Except.ok 8 from rfl) (by decide) (by decide)

/-- A `calloc` of two times four bytes gives two. -/
theorem calloc_gives_a_smaller_block :
    ¬ ∀ (L : Layout) (s : Session),
      Reachable Session.step (Session.Fresh L) (Session.init L) s →
      ∀ count size, s.GivesBlock L (s.sim.executeCalloc 1 count size)
        (count.intVal * size.intVal) fun _ => .memset 0 := by
  intro hclaim
  obtain ⟨p, hp, hblock⟩ := (hclaim eightChunks _ Reachable.init ⟨0, 2⟩ ⟨0, 4⟩).2 (by
    intro hbig
    exact absurd hbig (by unfold Layout.TooBig; decide))
  have hbase : ((Session.init eightChunks).sim.executeCalloc 1 ⟨0, 2⟩ ⟨0, 4⟩).1 =
      .ok (2 ^ 20 + 32) := rfl
  obtain rfl := Except.ok.inj (hbase.symm.trans hp)
  have hstored := hblock.stores (2 ^ 20 + 32) [1, 2, 3, 4, 5, 6, 7, 8] (by decide) le_rfl
    (by decide)
  cases hstored

end Borealis
