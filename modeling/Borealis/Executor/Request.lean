import Borealis.Executor.Session

/-!
# Requests for memory

What `AllocateMemory` and `MallocMemory` have in common: the amount grows to the length of a node
(`Level`), the offset of the region is rounded up to a multiple of it, and the tree marks the node
at the resulting address.  `perform_request` describes the step for a request whose block is a
node of the tree, and for one that is larger than the tree.
-/

namespace Borealis

open Lib

/-- The nodes that `amount` bytes are given: `span c k` is the least length of a node that is not
below `amount`. -/
structure Level (c amount k : ℕ) : Prop where
  le : amount ≤ span c k
  tight : k = 0 ∨ span c (k - 1) < amount

theorem Level.unique {c amount k k' : ℕ} (h : Level c amount k)
    (h' : Level c amount k') : k = k' := by
  by_contra hne
  rcases Nat.lt_or_gt_of_ne hne with hlt | hlt
  · have := span_mono c (show k ≤ k' - 1 by omega)
    have := h.le
    have := h'.tight
    omega
  · have := span_mono c (show k' ≤ k - 1 by omega)
    have := h'.le
    have := h.tight
    omega

theorem growChunk_eq {c amount : ℕ} (hc : 0 < c) (hamount : amount < 2 ^ 63) {fuel k : ℕ}
    (hk : k = 0 ∨ span c (k - 1) < amount) (hfuel : 65 ≤ fuel + k) :
    ∃ k', Level c amount k' ∧ growChunk amount fuel (span c k) = .ok (span c k') := by
  induction fuel generalizing k with
  | zero =>
      have hbig : span c 64 ≤ span c (k - 1) := span_mono c (by omega)
      have hle : 2 ^ 64 ≤ span c 64 := Nat.le_mul_of_pos_left _ hc
      omega
  | succ fuel ih =>
      simp only [growChunk]
      split
      · next hlt =>
          have hdouble : span c k * 2 % 2 ^ 64 = span c (k + 1) := by
            rw [span_succ, Nat.mod_eq_of_lt (by omega), Nat.mul_two]
          rw [hdouble]
          exact ih (Or.inr (by simpa using hlt)) (by omega)
      · next hle => exact ⟨k, ⟨by omega, hk⟩, rfl⟩

theorem calcRealMemoryAmount_eq {c amount : ℕ} (hc : 0 < c) (hamount : amount < 2 ^ 63) :
    ∃ k, Level c amount k ∧ calcRealMemoryAmount amount c = .ok (span c k) := by
  have hgrow := @growChunk_eq _ _ hc hamount 65 0 (Or.inl rfl) (by omega)
  rw [span_zero] at hgrow
  simpa only [calcRealMemoryAmount, ge_iff_le, Nat.not_le.mpr hamount, if_false] using hgrow

theorem nextPtr_eq (base offset realAmount : ℕ) :
    MemorySimulator.nextPtr base offset realAmount = ptrAdd base (roundUp offset realAmount) := by
  unfold MemorySimulator.nextPtr roundUp
  split <;> rfl

/-! ## The walk of `allocTraverser` -/

section Walk

variable {c size k p : ℕ} {state : MemoryState} {status : MemoryStatus}

@[simp] theorem allocTraverser_checkEmpty (addr : ℕ) (t : NodePtr) :
    (allocTraverser state status size).checkEmpty addr t = .ok () := by
  cases t <;> rfl

/-- An allocation goes on from a node whose children are large enough. -/
theorem alloc_handlePath_descend {h lo : ℕ} (hle : size ≤ span c h) (t : NodePtr)
    (visitLeft visitRight : Visit Unit) :
    (allocTraverser state status size).handlePath visitLeft visitRight lo
      (lo + span c (h + 1)) t.force.1 t.force.2.1 t.force.2.2 p () = .descend () := by
  simp only [allocTraverser, Nat.add_sub_cancel_left, span_succ]
  rw [if_neg (by omega), if_neg (by omega)]

/-- Allocation of the node of height `k` at `p` succeeds.  What holds of the change at that node,
and of a node if it holds of the child on the way, holds of the tree. -/
theorem descend_alloc {R : ℕ → ℕ → NodePtr → NodePtr → Prop} (hc : 0 < c)
    (hlevel : Level c size k)
    (here : ∀ t : NodePtr, R k p t
      (.node (t.force.1.allocate state status size) t.force.2.1 t.force.2.2))
    (left : ∀ h lo (t l' : NodePtr), IsNode c h lo k p → R h lo (t.force.2.1.derive t.force.1) l' →
      R (h + 1) lo t (.node t.force.1.invalidate l' (t.force.2.2.derive t.force.1)))
    (right : ∀ h lo (t r' : NodePtr), IsNode c h (lo + span c h) k p →
      R h (lo + span c h) (t.force.2.2.derive t.force.1) r' →
      R (h + 1) lo t (.node t.force.1.invalidate (t.force.2.1.derive t.force.1) r'))
    {h lo : ℕ} (hnode : IsNode c h lo k p) (t : NodePtr) :
    (descend (allocTraverser state status size) c h lo () p t).1 = .ok () ∧
      R h lo t (descend (allocTraverser state status size) c h lo () p t).2 := by
  have hk := span_pos hc k
  have hle := hlevel.le
  induction hnode generalizing t with
  | here h lo =>
      cases h with
      | zero =>
          rw [span_zero] at hle hk
          rw [descend_chunk ⟨le_rfl, by omega⟩ (allocTraverser_checkEmpty _ t)]
          simpa [allocTraverser, hle] using here t
      | succ h =>
          have htight : span c h < size := by simpa using hlevel.tight
          have hhalf : span c (h + 1) / 2 = span c h := by
            rw [span_succ]
            omega
          have hpath : ∀ visitLeft visitRight : Visit Unit,
              (allocTraverser state status size).handlePath visitLeft visitRight lo
                (lo + span c (h + 1)) t.force.1 t.force.2.1 t.force.2.2 lo () = .done (.ok ())
                (.node (t.force.1.allocate state status size) t.force.2.1 t.force.2.2) := by
            intro _ _
            simp only [allocTraverser, Nat.add_sub_cancel_left, hhalf, hle, htight, not_true,
              if_false, and_self, if_true]
          rw [descend_done ⟨le_rfl, by omega⟩ (allocTraverser_checkEmpty _ t) (hpath _ _)]
          exact ⟨rfl, here t⟩
  | @left h lo k p hn ih =>
      have hend := hn.end_le
      have hpath := @alloc_handlePath_descend c size p state status h lo
        (hle.trans (span_mono c hn.height_le)) t
      rw [descend_left ⟨hn.le_base, by omega⟩ (allocTraverser_checkEmpty _ t) (hpath _ _)]
      obtain ⟨hok, hR⟩ := ih hlevel here left right (t.force.2.1.derive t.force.1) hk hle
      exact ⟨hok, left h lo t _ hn hR⟩
  | @right h lo k p hn ih =>
      have hend := hn.end_le
      have hbase := hn.le_base
      have hpath := @alloc_handlePath_descend c size p state status h lo
        (hle.trans (span_mono c hn.height_le)) t
      rw [descend_right ⟨hbase, by omega⟩ (allocTraverser_checkEmpty _ t) (hpath _ _)]
      obtain ⟨hok, hR⟩ := ih hlevel here left right (t.force.2.2.derive t.force.1) hk hle
      exact ⟨hok, right h lo t _ hn hR⟩

end Walk

/-! ## Requests in a session -/

/-- What `AllocateMemory` or `MallocMemory` asks for, and the region it uses. -/
structure Request where
  base : ℕ
  offset : ℕ
  stop : ℕ
  amount : ℕ
  status : MemoryStatus
  state : MemoryState

/-- The request an operation makes. -/
def Session.request (s : Session) : Op → Option Request
  | .allocateMemory amount =>
    some ⟨s.sim.allocStart, s.sim.currentAllocOffset, s.sim.allocEnd, amount, .alloca, .uninit⟩
  | .mallocMemory amount fillWith =>
    some ⟨s.sim.mallocStart, s.sim.currentMallocOffset, s.sim.mallocEnd, amount, .malloc,
      fillWith.memState⟩
  | _ => none

/-- The address `realAmount` bytes are given in the region of a request. -/
def Request.place (r : Request) (realAmount : ℕ) : ℕ :=
  MemorySimulator.nextPtr r.base r.offset realAmount

/-- A request that no tree of the layout can hold. -/
def Layout.TooBig (L : Layout) (amount : ℕ) : Prop :=
  2 ^ 63 ≤ amount ∨ L.size < amount

section Perform

variable {L : Layout} {m : MemorySimulator} {base offset amount k : ℕ} {state : MemoryState}
  {status : MemoryStatus}

theorem allocateIn_tooBig (hm : m.HasLayout L) (hbig : L.TooBig amount) :
    MemorySimulator.allocateIn m.tree base offset amount state status =
      (.error (.outOfMemory amount), m.tree, offset) := by
  unfold MemorySimulator.allocateIn
  by_cases hamount : 2 ^ 63 ≤ amount
  · simp only [calcRealMemoryAmount, ge_iff_le, hamount, if_true]
  · obtain ⟨k, -, hcalc⟩ := calcRealMemoryAmount_eq L.pos (Nat.lt_of_not_le hamount)
    have hsize : L.size < amount := hbig.resolve_left hamount
    simp only [hm.chunkSize, hcalc, SegmentTree.allocate, hm.stop, hm.start, L.ptrSub_stop_start, gt_iff_lt,
      hsize, if_true]

/-- The tree after the allocation of the node at `p`. -/
def MemorySimulator.allocated (m : MemorySimulator) (L : Layout) (state : MemoryState)
    (status : MemoryStatus) (amount p : ℕ) : SegmentTree :=
  { m.tree with
    root := (descend (allocTraverser state status amount) L.chunkSize L.power Layout.start () p
      m.tree.root).2 }

theorem allocateIn_node (hm : m.HasLayout L) (hamount : amount < 2 ^ 63)
    (hlevel : Level L.chunkSize amount k)
    (hnode : IsNode L.chunkSize L.power Layout.start k
      (MemorySimulator.nextPtr base offset (span L.chunkSize k)))
    (hbase : base ≤ MemorySimulator.nextPtr base offset (span L.chunkSize k)) :
    MemorySimulator.allocateIn m.tree base offset amount state status =
      (.ok (MemorySimulator.nextPtr base offset (span L.chunkSize k)),
        m.allocated L state status amount
          (MemorySimulator.nextPtr base offset (span L.chunkSize k)),
        MemorySimulator.nextPtr base offset (span L.chunkSize k) + span L.chunkSize k - base) := by
  obtain ⟨k', hlevel', hcalc⟩ := calcRealMemoryAmount_eq L.pos hamount
  obtain rfl : k' = k := hlevel'.unique hlevel
  have hend : _ ≤ L.stop := hnode.end_le
  have hstop := L.stop_lt
  have hsize : ¬ amount > L.size := by
    have := hlevel.le
    have := span_mono L.chunkSize hnode.height_le
    simp only [Layout.size]
    omega
  have hok : (descend (allocTraverser state status amount) L.chunkSize L.power Layout.start () _
      m.tree.root).1 = .ok () :=
    (descend_alloc (R := fun _ _ _ _ => True) L.pos hlevel (fun _ => trivial)
      (fun _ _ _ _ _ _ => trivial) (fun _ _ _ _ _ _ => trivial) hnode m.tree.root).1
  unfold MemorySimulator.allocateIn
  simp only [hm.chunkSize, hcalc, SegmentTree.allocate, hm.stop, hm.start, L.ptrSub_stop_start, hsize, if_false,
    hm.run_eq, hok, MemorySimulator.allocated]
  rw [ptrAdd_of_lt (by omega), ptrSub_of_le (by omega) (by omega)]

theorem release_frame (addr : ℕ) (status : MemoryStatus) :
    ∃ root, (m.release addr status).2 = { m with tree := { m.tree with root } } := by
  unfold MemorySimulator.release
  split
  · exact ⟨_, rfl⟩
  · simp only [SegmentTree.free]
    split
    · exact ⟨_, rfl⟩
    · exact ⟨_, rfl⟩

theorem memset_frame (addr : ℕ) (fill : UInt8) (size : ℕ) :
    ∃ root, (m.memset addr fill size).2 = { m with tree := { m.tree with root } } := by
  simp only [MemorySimulator.memset, SegmentTree.memset]
  split
  · exact ⟨_, rfl⟩
  · exact ⟨_, rfl⟩

/-- An operation that asks for no memory changes only the root of the tree, and hands out no
block. -/
theorem Session.perform_frame {s : Session} {op : Op} (hop : s.request op = none) :
    (∃ root, (s.perform op).2.sim = { s.sim with tree := { s.sim.tree with root } }) ∧
      (s.perform op).2.issued = s.issued := by
  cases op with
  | allocateMemory amount => cases hop
  | mallocMemory amount fillWith => cases hop
  | store addr data =>
      have hsim : (s.perform (.store addr data)).2.sim = (s.sim.store addr data).2 :=
        settle_sim fun _ _ => rfl
      refine ⟨?_, settle_issued fun _ _ => rfl⟩
      rw [hsim]
      exact ⟨_, rfl⟩
  | deallocateMemory addr =>
      have hsim : (s.perform (.deallocateMemory addr)).2.sim = (s.sim.deallocateMemory addr).2 :=
        settle_sim fun _ _ => rfl
      refine ⟨?_, settle_issued fun _ _ => rfl⟩
      rw [hsim]
      exact release_frame addr .alloca
  | freeMemory addr =>
      have hsim : (s.perform (.freeMemory addr)).2.sim = (s.sim.freeMemory addr).2 :=
        settle_sim fun _ _ => rfl
      refine ⟨?_, settle_issued fun _ _ => rfl⟩
      rw [hsim]
      exact release_frame addr .malloc
  | memset addr fill size =>
      have hsim : (s.perform (.memset addr fill size)).2.sim = (s.sim.memset addr fill size).2 :=
        settle_sim fun _ _ => rfl
      refine ⟨?_, settle_issued fun _ _ => rfl⟩
      rw [hsim]
      exact memset_frame addr fill size

theorem SegmentTree.allocate_frame (tree : SegmentTree) (addr size : ℕ) (state : MemoryState)
    (status : MemoryStatus) :
    ∃ root, (tree.allocate addr size state status).2 = { tree with root } := by
  unfold SegmentTree.allocate
  split
  · exact ⟨_, rfl⟩
  · exact ⟨_, rfl⟩

theorem allocateIn_frame (tree : SegmentTree) (base offset amount : ℕ) (state : MemoryState)
    (status : MemoryStatus) :
    ∃ root o, (MemorySimulator.allocateIn tree base offset amount state status).2 =
      ({ tree with root }, o) := by
  unfold MemorySimulator.allocateIn
  split
  · exact ⟨_, _, rfl⟩
  · next real _ =>
      obtain ⟨root, hroot⟩ := tree.allocate_frame (MemorySimulator.nextPtr base offset real) amount
        state status
      cases hcall : tree.allocate (MemorySimulator.nextPtr base offset real) amount state
        status with
      | mk result tree' =>
          rw [hcall] at hroot
          obtain rfl : tree' = { tree with root } := hroot
          simp only [hcall]
          cases result with
          | error e => exact ⟨root, _, rfl⟩
          | ok v => exact ⟨root, _, rfl⟩

/-- No operation changes the layout. -/
theorem Session.perform_hasLayout {s : Session} (hs : s.sim.HasLayout L) (op : Op) :
    (s.perform op).2.sim.HasLayout L := by
  cases hr : s.request op with
  | none =>
      obtain ⟨⟨root, hsim⟩, -⟩ := Session.perform_frame hr
      exact hsim ▸ hs.with_root root _ _
  | some r =>
      cases op with
      | allocateMemory amount =>
          have hsim : (s.perform (.allocateMemory amount)).2.sim =
              (s.sim.allocateMemory amount).2 := settle_sim fun _ _ => rfl
          obtain ⟨root, o, hframe⟩ :=
            allocateIn_frame s.sim.tree s.sim.allocStart s.sim.currentAllocOffset amount .uninit
              .alloca
          rw [hsim]
          simp only [MemorySimulator.allocateMemory, hframe]
          exact hs.with_root root o _
      | mallocMemory amount fillWith =>
          have hsim : (s.perform (.mallocMemory amount fillWith)).2.sim =
              (s.sim.mallocMemory amount fillWith).2 := settle_sim fun _ _ => rfl
          obtain ⟨root, o, hframe⟩ := allocateIn_frame s.sim.tree s.sim.mallocStart
            s.sim.currentMallocOffset amount fillWith.memState .malloc
          rw [hsim]
          simp only [MemorySimulator.mallocMemory, hframe]
          exact hs.with_root root _ o
      | _ => cases hr

/-- The run lemma: every reachable state has the layout. -/
theorem Session.hasLayout_of_reachable {guard : Session → Op → Prop} {s : Session}
    (hrun : Reachable Session.step guard (Session.init L) s) : s.sim.HasLayout L := by
  refine hrun.invariant (P := fun s => s.sim.HasLayout L) (MemorySimulator.init_hasLayout L)
    fun s op s' hs _ hstep => ?_
  rw [Session.step_eq_some hstep]
  exact perform_hasLayout hs op

/-- A request of `2 ^ 63` bytes is never granted. -/
theorem amount_lt_of_allocateIn {tree : SegmentTree} {base offset amount ptr : ℕ}
    {state : MemoryState} {status : MemoryStatus}
    (hok : (MemorySimulator.allocateIn tree base offset amount state status).1 = .ok ptr) :
    amount < 2 ^ 63 := by
  by_contra hbig
  have hcalc : calcRealMemoryAmount amount tree.chunkSize = .error (.outOfMemory amount) := by
    simp only [calcRealMemoryAmount, ge_iff_le, Nat.not_lt.mp hbig, if_true]
  simp [MemorySimulator.allocateIn, hcalc] at hok

theorem Session.perform_amount {s : Session} (h : ∀ A ∈ s.live, A.amount < 2 ^ 63) (op : Op) :
    ∀ A ∈ (s.perform op).2.live, A.amount < 2 ^ 63 := by
  intro A hA
  cases op with
  | allocateMemory amount =>
      simp only [perform, settle] at hA
      split at hA
      · exact h A hA
      · next ptr hok =>
          rcases List.mem_cons.mp hA with rfl | hA
          · exact amount_lt_of_allocateIn hok
          · exact h A hA
  | mallocMemory amount fillWith =>
      simp only [perform, settle] at hA
      split at hA
      · exact h A hA
      · next ptr hok =>
          rcases List.mem_cons.mp hA with rfl | hA
          · exact amount_lt_of_allocateIn hok
          · exact h A hA
  | store addr data =>
      simp only [perform, settle] at hA
      split at hA <;> exact h A hA
  | deallocateMemory addr =>
      simp only [perform, settle] at hA
      split at hA
      · exact h A hA
      · exact h A (List.mem_filter.mp hA).1
  | freeMemory addr =>
      simp only [perform, settle] at hA
      split at hA
      · exact h A hA
      · exact h A (List.mem_filter.mp hA).1
  | memset addr fill size =>
      simp only [perform, settle] at hA
      split at hA <;> exact h A hA

/-- The run lemma: live allocations are smaller than `2 ^ 63` bytes. -/
theorem Session.amount_lt_of_reachable {guard : Session → Op → Prop} {s : Session}
    (hrun : Reachable Session.step guard (Session.init L) s) : ∀ A ∈ s.live, A.amount < 2 ^ 63 := by
  refine hrun.invariant (P := fun s => ∀ A ∈ s.live, A.amount < 2 ^ 63)
    (fun _ hA => absurd hA List.not_mem_nil) fun s op s' h _ hstep => ?_
  rw [Session.step_eq_some hstep]
  exact perform_amount h op

/-- A request larger than the tree throws and changes nothing. -/
theorem Session.perform_tooBig {s : Session} {op : Op} {r : Request} (hs : s.sim.HasLayout L)
    (hr : s.request op = some r) (hbig : L.TooBig r.amount) :
    s.perform op = (.error (.outOfMemory r.amount), s) := by
  cases op with
  | allocateMemory amount =>
      obtain rfl := Option.some.inj hr
      simp only [perform, MemorySimulator.allocateMemory, allocateIn_tooBig hs hbig, settle_error]
  | mallocMemory amount fillWith =>
      obtain rfl := Option.some.inj hr
      simp only [perform, MemorySimulator.mallocMemory, allocateIn_tooBig hs hbig, settle_error]
  | _ => cases hr

/-- The block a request is given at the node of height `k` at its place. -/
def Request.allocation (r : Request) (c k : ℕ) : Allocation :=
  ⟨r.place (span c k), span c k, r.amount, r.status, r.state⟩

/-- The region a request uses. -/
theorem Session.request_region {s : Session} {op : Op} {r : Request} (hs : s.sim.HasLayout L)
    (hr : s.request op = some r) :
    r.base = L.regionStart r.status ∧ r.stop = L.regionStop r.status ∧
      r.offset = s.sim.offset r.status := by
  cases op with
  | allocateMemory amount =>
      obtain rfl := Option.some.inj hr
      exact ⟨hs.allocStart, hs.allocEnd, rfl⟩
  | mallocMemory amount fillWith =>
      obtain rfl := Option.some.inj hr
      exact ⟨hs.mallocStart, hs.mallocEnd, rfl⟩
  | _ => cases hr

/-- A request whose place is a node is granted: the tree marks the node, and the offset of the
region moves behind the block. -/
theorem Session.perform_node {s : Session} {op : Op} {r : Request} (hs : s.sim.HasLayout L)
    (hr : s.request op = some r) (hamount : r.amount < 2 ^ 63)
    (hlevel : Level L.chunkSize r.amount k)
    (hnode : IsNode L.chunkSize L.power Layout.start k (r.place (span L.chunkSize k)))
    (hbase : r.base ≤ r.place (span L.chunkSize k)) :
    ∃ sim : MemorySimulator,
      s.perform op = (.ok (), { s with sim }.issue (r.allocation L.chunkSize k)) ∧
      sim.HasLayout L ∧
      sim.tree = s.sim.allocated L r.state r.status r.amount (r.place (span L.chunkSize k)) ∧
      ∀ status, sim.offset status = if status = .malloc ↔ r.status = .malloc then
        r.place (span L.chunkSize k) + span L.chunkSize k - r.base else s.sim.offset status := by
  obtain ⟨k', hlevel', hcalc⟩ := calcRealMemoryAmount_eq L.pos hamount
  obtain rfl : k' = k := hlevel'.unique hlevel
  have hreal : s.realAmount r.amount = span L.chunkSize k' := by
    simp only [Session.realAmount, hs.chunkSize, hcalc]
  cases op with
  | allocateMemory amount =>
      obtain rfl := Option.some.inj hr
      have hin := @allocateIn_node _ _ _ _ _ _ .uninit .alloca hs hamount hlevel hnode hbase
      have hcall : s.perform (.allocateMemory amount) = s.settle (.ok _, { s.sim with
          tree := _, currentAllocOffset := _ }) _ :=
        congrArg (fun r : Except Fault ℕ × SegmentTree × ℕ => s.settle
          (r.1, { s.sim with tree := r.2.1, currentAllocOffset := r.2.2 }) fun base s' =>
            s'.issue ⟨base, s.realAmount amount, amount, .alloca, .uninit⟩) hin
      rw [hcall, settle_ok, hreal]
      exact ⟨_, rfl, hs.with_root _ _ _, rfl, fun status => by cases status <;> rfl⟩
  | mallocMemory amount fillWith =>
      obtain rfl := Option.some.inj hr
      have hin := @allocateIn_node _ _ _ _ _ _ fillWith.memState .malloc hs hamount hlevel hnode
        hbase
      have hcall : s.perform (.mallocMemory amount fillWith) = s.settle (.ok _, { s.sim with
          tree := _, currentMallocOffset := _ }) _ :=
        congrArg (fun r : Except Fault ℕ × SegmentTree × ℕ => s.settle
          (r.1, { s.sim with tree := r.2.1, currentMallocOffset := r.2.2 }) fun base s' =>
            s'.issue ⟨base, s.realAmount amount, amount, .malloc, fillWith.memState⟩) hin
      rw [hcall, settle_ok, hreal]
      exact ⟨_, rfl, hs.with_root _ _ _, rfl, fun status => by cases status <;> rfl⟩
  | _ => cases hr

end Perform

end Borealis
