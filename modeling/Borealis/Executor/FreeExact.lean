import Borealis.Executor.Peek
import Borealis.Executor.StoreBounds

/-!
# What a release does

A release takes its block out of the tree and nothing else.  Where there is no such block it
should throw; but `freeTraverser::handleChunk` has no way to report that the chunk it ended in is
not the node to release, so the release throws only if a node is missing on the way.

## Strategy

The nodes above an allocated one have no state of their own (`Clear`): otherwise such a node would
still answer loads after the release.  With that, an induction on the walk compares the loads
before and after it.
-/

namespace Borealis

open Lib

/-! ## States above the allocated nodes -/

/-- No node above an allocated one on the path to `a` has a state of its own. -/
def Clear (c : ℕ) : (h lo : ℕ) → NodePtr → ℕ → Prop
  | 0, _, _, _ => True
  | h + 1, lo, t, a =>
    if a < lo + span c h then
      (owners c h lo t.force.2.1 a ≠ [] → t.force.1.state = .unknown) ∧ Clear c h lo t.force.2.1 a
    else
      (owners c h (lo + span c h) t.force.2.2 a ≠ [] → t.force.1.state = .unknown) ∧
        Clear c h (lo + span c h) t.force.2.2 a

section Clear

variable {c h lo a : ℕ} {t l' r' : NodePtr}

@[simp] theorem clear_null : Clear c h lo .null a := by
  induction h generalizing lo with
  | zero => trivial
  | succ h ih => simp [Clear, NodePtr.force, ih]

@[simp] theorem clear_derive {n : SegmentNode} :
    Clear c h lo (t.derive n) a ↔ Clear c h lo t a := by
  cases t with
  | null => cases h <;> simp [NodePtr.derive, Clear, NodePtr.force]
  | node _ _ _ => rfl

theorem clear_left (ha : a < lo + span c h) :
    Clear c (h + 1) lo t a ↔
      (owners c h lo t.force.2.1 a ≠ [] → t.force.1.state = .unknown) ∧
        Clear c h lo t.force.2.1 a := by
  simp only [Clear, ha, if_true]

theorem clear_right (ha : lo + span c h ≤ a) :
    Clear c (h + 1) lo t a ↔
      (owners c h (lo + span c h) t.force.2.2 a ≠ [] → t.force.1.state = .unknown) ∧
        Clear c h (lo + span c h) t.force.2.2 a := by
  simp only [Clear, Nat.not_lt.mpr ha, if_false]

/-- A node whose state was pushed down. -/
theorem Clear.invalidate (hclear : Clear c (h + 1) lo t a)
    (hl : Clear c h lo t.force.2.1 a → Clear c h lo l' a)
    (hr : Clear c h (lo + span c h) t.force.2.2 a → Clear c h (lo + span c h) r' a) :
    Clear c (h + 1) lo (.node t.force.1.invalidate l' r') a := by
  rcases Nat.lt_or_ge a (lo + span c h) with ha | ha
  · exact (clear_left ha).mpr ⟨fun _ => rfl, hl ((clear_left ha).mp hclear).2⟩
  · exact (clear_right ha).mpr ⟨fun _ => rfl, hr ((clear_right ha).mp hclear).2⟩

/-- A node whose own state changes: it was known before, or nobody owns anything below. -/
theorem Clear.update (hclear : Clear c h lo t a) {n : SegmentNode}
    (hbelow : t.force.1.state ≠ .unknown ∨ owners c h lo t a = []) :
    Clear c h lo (.node n t.force.2.1 t.force.2.2) a := by
  cases h with
  | zero => trivial
  | succ h =>
      rcases Nat.lt_or_ge a (lo + span c h) with ha | ha
      · obtain ⟨hstate, hchild⟩ := (clear_left ha).mp hclear
        refine (clear_left ha).mpr ⟨fun howned => ?_, hchild⟩
        rcases hbelow with hknown | hnil
        · exact absurd (hstate howned) hknown
        · exact absurd (owners_eq_nil_left ha hnil).2 howned
      · obtain ⟨hstate, hchild⟩ := (clear_right ha).mp hclear
        refine (clear_right ha).mpr ⟨fun howned => ?_, hchild⟩
        rcases hbelow with hknown | hnil
        · exact absurd (hstate howned) hknown
        · exact absurd (owners_eq_nil_right ha hnil).2 howned

end Clear

theorem StoreWalk.clear {c h lo addr : ℕ} {s : StoreState} {t t' : NodePtr}
    {result : Except Fault Unit} (hw : StoreWalk c h lo addr s t result t') {a : ℕ}
    (hclear : Clear c h lo t a) : Clear c h lo t' a := by
  induction hw with
  | outside => exact hclear
  | @reject h lo addr s t e => cases h <;> exact hclear
  | tooLong => trivial
  | unallocated => trivial
  | write => trivial
  | splitFail _ _ _ _ _ ih =>
      exact hclear.invalidate (fun hl => ih (clear_derive.mpr hl)) clear_derive.mpr
  | split _ _ _ _ _ _ ih ih' =>
      exact hclear.invalidate (fun hl => ih (clear_derive.mpr hl))
        fun hr => ih' (clear_derive.mpr hr)
  | left _ _ _ _ ih =>
      exact hclear.invalidate (fun hl => ih (clear_derive.mpr hl)) clear_derive.mpr
  | right _ _ _ ih =>
      exact hclear.invalidate clear_derive.mpr fun hr => ih (clear_derive.mpr hr)

theorem MemsetWalk.clear {c h lo addr : ℕ} {fill : UInt8} {s : MemsetState} {t t' : NodePtr}
    {result : Except Fault Unit} (hw : MemsetWalk c fill h lo addr s t result t') {a : ℕ}
    (hclear : Clear c h lo t a) : Clear c h lo t' a := by
  induction hw with
  | outside => exact hclear
  | whole => trivial
  | pastEnd => trivial
  | part => trivial
  | skip => trivial
  | lazy _ hknown => exact hclear.update (Or.inl hknown)
  | splitFail _ _ _ _ ih =>
      exact hclear.invalidate (fun hl => ih (clear_derive.mpr hl)) clear_derive.mpr
  | split _ _ _ _ _ ih ih' =>
      exact hclear.invalidate (fun hl => ih (clear_derive.mpr hl))
        fun hr => ih' (clear_derive.mpr hr)
  | left _ _ ih =>
      exact hclear.invalidate (fun hl => ih (clear_derive.mpr hl)) clear_derive.mpr
  | right _ _ ih =>
      exact hclear.invalidate clear_derive.mpr fun hr => ih (clear_derive.mpr hr)

/-- Allocation of a node that nobody owns. -/
theorem clear_alloc {c size k p : ℕ} {state : MemoryState} {status : MemoryStatus} (hc : 0 < c)
    (hlevel : Level c size k) {h lo : ℕ} (hnode : IsNode c h lo k p) (t : NodePtr)
    (hfree : ∀ a, p ≤ a → a < p + span c k → owners c h lo t a = []) {a : ℕ} (hlo : lo ≤ a)
    (hhi : a < lo + span c h) (hclear : Clear c h lo t a) :
    Clear c h lo (descend (allocTraverser state status size) c h lo () p t).2 a := by
  refine (descend_alloc (R := fun h lo t t' =>
    (∀ a, p ≤ a → a < p + span c k → owners c h lo t a = []) → ∀ a, lo ≤ a → a < lo + span c h →
      Clear c h lo t a → Clear c h lo t' a) hc hlevel ?here ?left ?right hnode t).2
        hfree a hlo hhi hclear
  case here =>
    intro t hfree a hlo hhi hclear
    exact hclear.update (Or.inr (hfree a hlo hhi))
  case left =>
    intro h lo t l' hn ih hfree a hlo hhi hclear
    have hend := hn.end_le
    rcases Nat.lt_or_ge a (lo + span c h) with ha | ha
    · refine (clear_left ha).mpr ⟨fun _ => rfl, ih (fun b hb hb' => ?_) a hlo ha ?_⟩
      · rw [owners_derive]
        exact (owners_eq_nil_left (by omega) (hfree b hb hb')).2
      · exact clear_derive.mpr ((clear_left ha).mp hclear).2
    · exact (clear_right ha).mpr ⟨fun _ => rfl, clear_derive.mpr ((clear_right ha).mp hclear).2⟩
  case right =>
    intro h lo t r' hn ih hfree a hlo hhi hclear
    have hbase := hn.le_base
    rcases Nat.lt_or_ge a (lo + span c h) with ha | ha
    · exact (clear_left ha).mpr ⟨fun _ => rfl, clear_derive.mpr ((clear_left ha).mp hclear).2⟩
    · rw [span_succ] at hhi
      refine (clear_right ha).mpr ⟨fun _ => rfl, ih (fun b hb hb' => ?_) a ha (by omega) ?_⟩
      · rw [owners_derive]
        exact (owners_eq_nil_right (by omega) (hfree b hb hb')).2
      · exact clear_derive.mpr ((clear_right ha).mp hclear).2

/-- A release takes owners away and changes no state. -/
theorem FreeWalk.clear {c h lo addr : ℕ} {st : MemoryStatus} {t t' : NodePtr}
    {result : Except Fault Unit} (hc : 0 < c) (hst : st ≠ .unallocated)
    (hw : FreeWalk c st addr h lo t result t') (hone : SingleOwner c h lo t) {a : ℕ} (hlo : lo ≤ a)
    (hhi : a < lo + span c h) (hclear : Clear c h lo t a) : Clear c h lo t' a := by
  induction hw with
  | outside => exact hclear
  | missing => exact hclear
  | hit => exact clear_null
  | miss => exact hclear
  | @left h lo n l r result l' haddr hmiss hleft ih =>
      rw [span_succ] at hhi
      rcases Nat.lt_or_ge a (lo + span c h) with ha | ha
      · obtain ⟨hstate, hchild⟩ := (clear_left ha).mp hclear
        refine (clear_left ha).mpr ⟨fun howned => hstate fun hnil => howned ?_,
          ih hone.left hlo ha hchild⟩
        show owners c h lo l' a = []
        rw [hleft.owners_eq hc hst hone.left hlo ha]
        exact List.filter_eq_nil_iff.mpr (by simp [show owners c h lo l a = [] from hnil])
      · rw [clear_right ha] at hclear ⊢
        exact hclear
  | @right h lo n l r result r' haddr hmiss hright ih =>
      rw [span_succ] at hhi
      rcases Nat.lt_or_ge a (lo + span c h) with ha | ha
      · rw [clear_left ha] at hclear ⊢
        exact hclear
      · obtain ⟨hstate, hchild⟩ := (clear_right ha).mp hclear
        refine (clear_right ha).mpr ⟨fun howned => hstate fun hnil => howned ?_,
          ih hone.right ha (by omega) hchild⟩
        show owners c h (lo + span c h) r' a = []
        rw [hright.owners_eq hc hst hone.right ha (by omega)]
        exact List.filter_eq_nil_iff.mpr
          (by simp [show owners c h (lo + span c h) r a = [] from hnil])

/-! ## Where a release ends -/

/-- A node of the status starts at `addr`, on the way to its chunk. -/
def StartsAt (c : ℕ) (st : MemoryStatus) (addr : ℕ) : (h lo : ℕ) → NodePtr → Prop
  | _, _, .null => False
  | 0, lo, .node n _ _ => lo = addr ∧ n.status = st
  | h + 1, lo, .node n l r =>
    (lo = addr ∧ n.status = st) ∨
      if addr < lo + span c h then StartsAt c st addr h lo l
      else StartsAt c st addr h (lo + span c h) r

/-- No node is missing on the way to the chunk of `addr`. -/
def HasChunk (c addr : ℕ) : (h lo : ℕ) → NodePtr → Prop
  | _, _, .null => False
  | 0, _, .node _ _ _ => True
  | h + 1, lo, .node _ l r =>
    if addr < lo + span c h then HasChunk c addr h lo l else HasChunk c addr h (lo + span c h) r

section Ends

variable {c h lo addr a : ℕ} {st : MemoryStatus} {t t' : NodePtr} {result : Except Fault Unit}

@[simp] theorem not_startsAt_null : ¬ StartsAt c st addr h lo .null := by
  cases h <;> exact id

@[simp] theorem not_hasChunk_null : ¬ HasChunk c addr h lo .null := by
  cases h <;> exact id

/-- A release in the tree returns if a node of the status starts at the address, but also if the
chunk of the address exists. -/
theorem FreeWalk.ok_iff (hw : FreeWalk c st addr h lo t result t')
    (hin : lo ≤ addr ∧ addr < lo + span c h) :
    result = .ok () ↔ StartsAt c st addr h lo t ∨ HasChunk c addr h lo t := by
  induction hw with
  | outside haddr => exact absurd hin haddr
  | missing => simp
  | @hit h n l r hn => cases h <;> simp [StartsAt, hn]
  | miss => simp [HasChunk]
  | left haddr hmiss _ ih =>
      simp only [StartsAt, HasChunk, haddr.2, if_true, hmiss, false_or]
      exact ih haddr
  | right haddr hmiss _ ih =>
      simp only [StartsAt, HasChunk, Nat.not_lt.mpr haddr.1, if_false, hmiss, false_or]
      exact ih haddr

theorem FreeWalk.error_eq (hw : FreeWalk c st addr h lo t result t')
    (hin : lo ≤ addr ∧ addr < lo + span c h) (hne : result ≠ .ok ()) :
    result = .error (.illegalFree addr) := by
  induction hw with
  | outside haddr => exact absurd hin haddr
  | missing => rfl
  | hit => exact absurd rfl hne
  | miss => exact absurd rfl hne
  | left haddr _ _ ih => exact ih haddr hne
  | right haddr _ _ ih => exact ih haddr hne

/-- An allocated node that starts at an address owns it. -/
theorem startsAt_iff_owner (hst : st ≠ .unallocated)
    (hin : lo ≤ addr ∧ addr < lo + span c h) :
    StartsAt c st addr h lo t ↔ ∃ o ∈ owners c h lo t addr, ¬ o.keptBy addr st := by
  have howner : ∀ {n : SegmentNode} {lo : ℕ},
      (lo = addr ∧ n.status = st) ↔ ∃ o ∈ n.owner lo, ¬ o.keptBy addr st := by
    intro n lo
    constructor
    · rintro ⟨rfl, rfl⟩
      exact ⟨_, SegmentNode.mem_owner.mpr ⟨hst, rfl⟩, by simp [Owner.keptBy]⟩
    · rintro ⟨o, ho, hkept⟩
      by_contra hmiss
      exact hkept (SegmentNode.keptBy_of_miss hmiss o ho)
  induction h generalizing lo t with
  | zero =>
      cases t with
      | null => simp
      | node n l r => exact howner
  | succ h ih =>
      cases t with
      | null => simp
      | node n l r =>
          rw [span_succ] at hin
          have happ : ∀ {below : List Owner},
              (∃ o ∈ n.owner lo ++ below, ¬ o.keptBy addr st) ↔
                (lo = addr ∧ n.status = st) ∨ ∃ o ∈ below, ¬ o.keptBy addr st := by
            intro below
            simp only [List.mem_append, or_and_right, exists_or, howner]
          rcases Nat.lt_or_ge addr (lo + span c h) with ha | ha
          · have hbelow := ih (t := l) ⟨hin.1, ha⟩
            rw [owners_left ha, NodePtr.force_node, happ]
            simp only [StartsAt, ha, if_true, hbelow]
          · have hbelow := ih (t := r) ⟨ha, by omega⟩
            rw [owners_right ha, NodePtr.force_node, happ]
            simp only [StartsAt, Nat.not_lt.mpr ha, if_false, hbelow]

/-! ## Loads after a release -/

/-- The bytes of the other blocks, and those of no block, are reported as before. -/
theorem FreeWalk.peek_eq (hst : st ≠ .unallocated) (hw : FreeWalk c st addr h lo t result t')
    (hkept : ∀ o ∈ owners c h lo t a, o.keptBy addr st) : peek c h lo t' a = peek c h lo t a := by
  induction hw with
  | outside => rfl
  | missing => rfl
  | @hit h n l r hn =>
      have hmem : (⟨addr, n.reallyAllocated, st⟩ : Owner) ∈ owners c h addr (.node n l r) a := by
        cases h <;> simp [owners, SegmentNode.owner, hn, hst]
      simpa [Owner.keptBy] using hkept _ hmem
  | miss => rfl
  | @left h lo n l r result l' haddr hmiss _ ih =>
      simp only [peek]
      rcases Nat.lt_or_ge a (lo + span c h) with ha | ha
      · rw [owners_left ha] at hkept
        rw [if_pos ha, if_pos ha, ih fun o ho => hkept o (List.mem_append_right _ ho)]
      · rw [if_neg (Nat.not_lt.mpr ha), if_neg (Nat.not_lt.mpr ha)]
  | @right h lo n l r result r' haddr hmiss _ ih =>
      simp only [peek]
      rcases Nat.lt_or_ge a (lo + span c h) with ha | ha
      · rw [if_pos ha, if_pos ha]
      · rw [owners_right ha] at hkept
        rw [if_neg (Nat.not_lt.mpr ha), if_neg (Nat.not_lt.mpr ha),
          ih fun o ho => hkept o (List.mem_append_right _ ho)]

/-- A load of a byte of the released block is illegal. -/
theorem FreeWalk.peek_illegal (hc : 0 < c) (hw : FreeWalk c st addr h lo t result t')
    (hclear : Clear c h lo t a) {o : Owner} (ho : o ∈ owners c h lo t a)
    (hgone : ¬ o.keptBy addr st) (hlo : lo ≤ a) (hhi : a < lo + span c h) :
    peek c h lo t' a = .error (.illegalLoad a) := by
  induction hw with
  | outside haddr => exact absurd (keptBy_of_outside hc haddr o ho) hgone
  | missing => simp at ho
  | hit => exact peek_null
  | miss _ hmiss => exact absurd (SegmentNode.keptBy_of_miss hmiss o ho) hgone
  | @left h lo n l r result l' haddr hmiss _ ih =>
      rw [span_succ] at hhi
      rcases Nat.lt_or_ge a (lo + span c h) with ha | ha
      · rw [owners_left ha, List.mem_append] at ho
        rcases ho with ho | ho
        · exact absurd (SegmentNode.keptBy_of_miss hmiss o ho) hgone
        · obtain ⟨hstate, hchild⟩ := (clear_left ha).mp hclear
          have hunknown : n.state = .unknown := hstate (List.ne_nil_of_mem ho)
          rw [peek_left hunknown ha]
          exact ih hchild ho hlo ha
      · rw [owners_right ha, List.mem_append] at ho
        rcases ho with ho | ho
        · exact absurd (SegmentNode.keptBy_of_miss hmiss o ho) hgone
        · exact absurd (keptBy_of_outside hc (by omega) o ho) hgone
  | @right h lo n l r result r' haddr hmiss _ ih =>
      rw [span_succ] at hhi
      rcases Nat.lt_or_ge a (lo + span c h) with ha | ha
      · rw [owners_left ha, List.mem_append] at ho
        rcases ho with ho | ho
        · exact absurd (SegmentNode.keptBy_of_miss hmiss o ho) hgone
        · exact absurd (keptBy_of_outside hc (by omega) o ho) hgone
      · rw [owners_right ha, List.mem_append] at ho
        rcases ho with ho | ho
        · exact absurd (SegmentNode.keptBy_of_miss hmiss o ho) hgone
        · obtain ⟨hstate, hchild⟩ := (clear_right ha).mp hclear
          have hunknown : n.state = .unknown := hstate (List.ne_nil_of_mem ho)
          rw [peek_right hunknown ha]
          exact ih hchild ho ha (by omega)

end Ends

/-! ## Sessions -/

variable {L : Layout}

/-- The nodes above the live blocks have no state of their own. -/
structure Session.Cleared (L : Layout) (s : Session) : Prop where
  tracked : s.Tracked L
  clear : ∀ a, Layout.start ≤ a → a < L.stop → Clear L.chunkSize L.power Layout.start s.root a

namespace Session.Cleared

variable {s : Session}

theorem perform_request {op : Op} {r : Request} (h : s.Cleared L) (hr : s.request op = some r)
    (hfresh : s.Fresh L op) : (s.perform op).2.Cleared L := by
  by_cases hbig : L.TooBig r.amount
  · rw [Session.perform_tooBig h.tracked.layout hr hbig]
    exact h
  refine ⟨h.tracked.perform_request hr hfresh, fun a hlo hhi => ?_⟩
  obtain ⟨k, sim, hlevel, -, -, hnode, hperform, -, hroot, hapart⟩ := h.tracked.grant hr hfresh hbig
  have hend : r.place (span L.chunkSize k) + span L.chunkSize k ≤ L.stop := hnode.end_le
  rw [hperform]
  show Clear _ _ _ sim.tree.root a
  rw [hroot]
  refine clear_alloc L.pos hlevel hnode s.root (fun b hb hb' => ?_) hlo hhi (h.clear a hlo hhi)
  exact h.tracked.owners_eq_nil_of_apart hapart ⟨hb, hb'⟩ (hnode.le_base.trans hb) (by omega)

theorem perform_release {op : Op} {addr : ℕ} {st : MemoryStatus} (h : s.Cleared L)
    (hop : op.releases = some (addr, st)) : (s.perform op).2.Cleared L := by
  refine ⟨h.tracked.perform_release hop, fun a hlo hhi => ?_⟩
  rcases Session.freeWalk h.tracked.layout hop with herror | ⟨result, root, hperform, hwalk⟩
  · rw [herror]
    exact h.clear a hlo hhi
  · have hclear := hwalk.clear L.pos (Session.releases_status hop) h.tracked.one hlo hhi
      (h.clear a hlo hhi)
    rw [hperform]
    cases result with
    | error e => exact hclear
    | ok v => exact hclear

/-- The step lemma: no operation gives a node above a live block a state. -/
theorem step {s' : Session} {op : Op} (h : s.Cleared L) (hfresh : s.Fresh L op)
    (hstep : s.step op = some s') : s'.Cleared L := by
  have htracked := h.tracked.step hfresh hstep
  obtain rfl := Session.step_eq_some hstep
  cases hr : s.request op with
  | some r => exact h.perform_request hr hfresh
  | none =>
      cases op with
      | allocateMemory amount => cases hr
      | mallocMemory amount fillWith => cases hr
      | store addr data =>
          exact ⟨htracked, fun a hlo hhi =>
            (Session.storeWalk h.tracked.layout addr data).clear (h.clear a hlo hhi)⟩
      | deallocateMemory addr => exact h.perform_release rfl
      | freeMemory addr => exact h.perform_release rfl
      | memset addr fill size =>
          rcases Session.memsetWalk h.tracked.layout addr fill size with herror | hwalk
          · rw [herror]
            exact h
          · exact ⟨htracked, fun a hlo hhi => hwalk.clear (h.clear a hlo hhi)⟩

end Session.Cleared

/-- The run lemma: in a run of fresh requests the nodes above the live blocks have no state. -/
theorem Session.cleared_of_reachable {s : Session}
    (hrun : Reachable Session.step (Session.Fresh L) (Session.init L) s) : s.Cleared L :=
  hrun.invariant ⟨Session.init_tracked L, fun _ _ _ => clear_null⟩
    fun _ _ _ h hfresh hstep => h.step hfresh hstep

/-- The session after the tree was asked to release the block of status `st` at `addr`. -/
def Session.freed (s : Session) (addr : ℕ) (st : MemoryStatus) : Session :=
  { s with sim := { s.sim with tree := (s.sim.tree.free addr st).2 } }.released addr st

/-- A live allocation of the status starts at the address. -/
def Session.Releasable (s : Session) (addr : ℕ) (st : MemoryStatus) : Prop :=
  ∃ A ∈ s.live, A.base = addr ∧ A.status = st

/-- A release takes the block it is asked for out of the tree and nothing else, or throws. -/
structure Session.FreesExactly (L : Layout) (s : Session) (addr : ℕ) (st : MemoryStatus) :
    Prop where
  returns : s.Releasable addr st → (s.sim.tree.free addr st).1 = .ok ()
  load_gone : ∀ A ∈ s.live, A.base = addr → A.status = st → ∀ a, A.Covers a →
    (s.freed addr st).get a = .error (.illegalLoad a)
  store_gone : ∀ A ∈ s.live, A.base = addr → A.status = st → ∀ a data, 0 < data.length →
    Layout.start ≤ a → a + data.length ≤ L.stop →
    (∃ b, A.Covers b ∧ a ≤ b ∧ b < a + data.length) →
    ∃ x, ((s.freed addr st).perform (.store a data)).1 = .error (.illegalStore x)
  others : ∀ a, Layout.start ≤ a → a < L.stop →
    (∀ A ∈ s.live, A.base = addr → A.status = st → ¬ A.Covers a) →
    (s.freed addr st).get a = s.get a
  throws : ¬ s.Releasable addr st → (s.sim.tree.free addr st).1 = .error (.illegalFree addr)

/-- The walk to an address that is not in the tree, or on whose way a node is missing. -/
def Session.MissesNode (L : Layout) (s : Session) (addr : ℕ) (st : MemoryStatus) : Prop :=
  addr < Layout.start ∨ L.stop ≤ addr ∨
    ¬ (StartsAt L.chunkSize st addr L.power Layout.start s.root ∨
      HasChunk L.chunkSize addr L.power Layout.start s.root)

section Freed

variable {s : Session} {addr : ℕ} {st : MemoryStatus}

theorem Session.free_outside (hs : s.sim.HasLayout L)
    (hout : addr < Layout.start ∨ L.stop ≤ addr) :
    s.sim.tree.free addr st = (.error (.illegalFree addr), s.sim.tree) := by
  simp only [SegmentTree.free, hs.start, hs.stop, hout, if_true]

/-- A release in the tree is a `FreeWalk`. -/
theorem Session.free_walk (hs : s.sim.HasLayout L) (st : MemoryStatus)
    (hin : ¬ (addr < Layout.start ∨ L.stop ≤ addr)) :
    ∃ result root, s.sim.tree.free addr st = (result, { s.sim.tree with root }) ∧
      FreeWalk L.chunkSize st addr L.power Layout.start s.root result root := by
  refine ⟨_, _, ?_, freeWalk_descend L.chunkSize st addr L.power Layout.start s.root⟩
  simp only [SegmentTree.free, hs.start, hs.stop, hin, if_false, hs.run_eq, root]

theorem Session.Tracked.owner_mem {A : Allocation} (h : s.Tracked L) (hA : A ∈ s.live) {a : ℕ}
    (ha : A.Covers a) :
    (Layout.start ≤ a ∧ a < L.stop) ∧
      A.owner ∈ Borealis.owners L.chunkSize L.power Layout.start s.root a := by
  obtain ⟨⟨k, -, hreal, hnode⟩, -⟩ := h.block A hA
  have hbase := hnode.le_base
  have hend : A.base + span L.chunkSize k ≤ L.stop := hnode.end_le
  have ha' := ha
  simp only [Allocation.Covers, hreal] at ha'
  have hin : Layout.start ≤ a ∧ a < L.stop := by omega
  refine ⟨hin, ?_⟩
  rw [h.owners a hin.1 hin.2]
  exact List.mem_map_of_mem (List.mem_filter.mpr ⟨hA, decide_eq_true ha⟩)

theorem Allocation.not_keptBy {A : Allocation} (hbase : A.base = addr) (hstatus : A.status = st) :
    ¬ A.owner.keptBy addr st := by
  simp [Owner.keptBy, owner, hbase, hstatus]

/-- A release of a live block takes it out of the tree and nothing else. -/
theorem Session.Cleared.freesExactly (h : s.Cleared L) (hlive : s.Releasable addr st) :
    s.FreesExactly L addr st := by
  obtain ⟨A, hA, rfl, rfl⟩ := hlive
  obtain ⟨⟨k, -, hreal, -⟩, hstatus⟩ := h.tracked.block A hA
  have hpos := span_pos L.pos k
  have hcovers : A.Covers A.base := ⟨le_rfl, by omega⟩
  obtain ⟨hin, howner⟩ := h.tracked.owner_mem hA hcovers
  obtain ⟨result, root, hfree, hwalk⟩ := Session.free_walk h.tracked.layout A.status
    (show ¬ (A.base < Layout.start ∨ L.stop ≤ A.base) by omega)
  have hfreed : s.freed A.base A.status =
      { s with sim := { s.sim with tree := { s.sim.tree with root } } }.released A.base
        A.status := by
    rw [Session.freed, hfree]
  have hlayout : (s.freed A.base A.status).sim.HasLayout L :=
    hfreed ▸ h.tracked.layout.with_root root _ _
  have htracked : (s.freed A.base A.status).Tracked L :=
    hfreed ▸ h.tracked.released hstatus hwalk (h.tracked.layout.with_root root _ _) rfl
  have hroot : (s.freed A.base A.status).root = root := by
    rw [hfreed]
    rfl
  have hsame : ∀ B ∈ s.live, B.base = A.base → B.status = A.status → B = A := by
    intro B hB hbase _
    obtain ⟨⟨k', -, hreal', -⟩, -⟩ := h.tracked.block B hB
    have hpos' := span_pos L.pos k'
    exact h.tracked.eq_of_covers hB hA ⟨hbase.le, by omega⟩ hcovers
  refine ⟨fun _ => ?_, fun B hB hbase hst a ha => ?_,
    fun B hB hbase hst a data hlen hlo hhi hmeet => ?_, fun a hlo hhi hother => ?_, fun hnone => absurd ⟨A, hA, rfl, rfl⟩ hnone⟩
  · rw [hfree]
    exact (hwalk.ok_iff hin).mpr (Or.inl ((startsAt_iff_owner hstatus hin).mpr
      ⟨_, howner, Allocation.not_keptBy rfl rfl⟩))
  · obtain ⟨hin', howner'⟩ := h.tracked.owner_mem hB ha
    rw [Session.get_eq hlayout hin'.1 hin'.2, hroot]
    exact hwalk.peek_illegal L.pos (h.clear a hin'.1 hin'.2) howner'
      (Allocation.not_keptBy hbase hst) hin'.1 hin'.2
  · obtain ⟨b, hb, hab, hba⟩ := hmeet
    refine (htracked.store_acceptedIf hlen hlo hhi).illegal fun hblocks => ?_
    -- the block over `b` is another one that is live, so it is `A` itself
    obtain ⟨C, hC, hcontains⟩ := hblocks b hab hba
    obtain ⟨hC', hkept⟩ := List.mem_filter.mp hC
    obtain rfl := hsame B hB hbase hst
    obtain rfl := h.tracked.eq_of_covers hC' hB ((h.tracked.block C hC').covers hcontains) hb
    simp at hkept
  · rw [Session.get_eq hlayout hlo hhi, Session.get_eq h.tracked.layout hlo hhi, hroot]
    refine hwalk.peek_eq hstatus fun o ho => ?_
    rw [h.tracked.owners a hlo hhi, List.mem_map] at ho
    obtain ⟨B, hB, rfl⟩ := ho
    obtain ⟨hB, hcovers⟩ := List.mem_filter.mp hB
    exact decide_eq_true fun heq => hother B hB heq.1 heq.2 (of_decide_eq_true hcovers)

/-- A release of no live block that throws changes nothing. -/
theorem Session.freesExactly_of_error (hnone : ¬ s.Releasable addr st)
    (herror : s.sim.tree.free addr st = (.error (.illegalFree addr), s.sim.tree)) :
    s.FreesExactly L addr st where
  returns hlive := absurd hlive hnone
  load_gone A hA hbase hst := absurd ⟨A, hA, hbase, hst⟩ hnone
  store_gone A hA hbase hst := absurd ⟨A, hA, hbase, hst⟩ hnone
  others a _ _ _ := by simp only [get, freed, herror, released]
  throws _ := by rw [herror]

/-- **A release takes out exactly one block or throws**, if and only if a live block of the status
starts at the address, or the walk to the address misses a node: in every state that a run of fresh
requests reaches, a release of no live block returns as if nothing was wrong where the chunk of the
address exists. -/
theorem free_exact_iff (L : Layout) {s : Session}
    (hrun : Reachable Session.step (Session.Fresh L) (Session.init L) s) (addr : ℕ)
    (st : MemoryStatus) :
    s.FreesExactly L addr st ↔ s.Releasable addr st ∨ s.MissesNode L addr st := by
  have hinv := Session.cleared_of_reachable hrun
  have hlayout := hinv.tracked.layout
  constructor
  · intro hexact
    by_contra hnot
    obtain ⟨hnone, hmiss⟩ := not_or.mp hnot
    have hthrows := hexact.throws hnone
    obtain ⟨hlo, hmiss⟩ := not_or.mp hmiss
    obtain ⟨hhi, hfound⟩ := not_or.mp hmiss
    obtain ⟨result, root, hfree, hwalk⟩ :=
      Session.free_walk hlayout st (not_or.mpr ⟨hlo, hhi⟩)
    have hok := (hwalk.ok_iff ⟨Nat.le_of_not_lt hlo, Nat.lt_of_not_le hhi⟩).mpr (not_not.mp hfound)
    simp [hfree, hok] at hthrows
  · intro hcond
    by_cases hlive : s.Releasable addr st
    · exact hinv.freesExactly hlive
    have hmiss := hcond.resolve_left hlive
    by_cases hout : addr < Layout.start ∨ L.stop ≤ addr
    · exact Session.freesExactly_of_error hlive (Session.free_outside hlayout hout)
    · have hin : Layout.start ≤ addr ∧ addr < L.stop := by omega
      have hfound := (or_assoc.mpr hmiss).resolve_left hout
      obtain ⟨result, root, hfree, hwalk⟩ := Session.free_walk hlayout st hout
      obtain rfl := hwalk.error_eq hin (mt (hwalk.ok_iff hin).mp hfound)
      rw [hwalk.eq_of_error rfl] at hfree
      exact Session.freesExactly_of_error hlive hfree

end Freed

/-- Eight bytes of heap, and their release. -/
theorem free_exact_eightChunks :
    ((Session.init eightChunks).perform (.mallocMemory 8 .zero)).2.FreesExactly eightChunks
      (2 ^ 20 + 32) .malloc := by
  have hfresh : (Session.init eightChunks).Fresh eightChunks (.mallocMemory 8 .zero) :=
    Session.placed_of_room rfl (show _ = Except.ok 8 from rfl) (by decide) (by decide)
  have hrun := Session.reachable_perform Reachable.init (.mallocMemory 8 .zero) hfresh rfl
  exact (free_exact_iff eightChunks hrun (2 ^ 20 + 32) .malloc).mpr
    (Or.inl ⟨⟨2 ^ 20 + 32, 8, 8, .malloc, .memset⟩, by decide, rfl, rfl⟩)

/-- A release of the second byte of eight bytes of heap returns. -/
theorem free_not_exact :
    ¬ ∀ (L : Layout) (s : Session), Reachable Session.step (fun _ _ => True) (Session.init L) s →
      ∀ addr st, s.FreesExactly L addr st := by
  intro hclaim
  have hrun : Reachable Session.step (fun _ _ => True) (Session.init eightChunks) _ := .init
  have hrun₁ := Session.reachable_perform hrun (.mallocMemory 8 .zero) trivial rfl
  have hthrows := (hclaim eightChunks _ hrun₁ (2 ^ 20 + 33) .malloc).throws (by
    rintro ⟨A, hA, hbase, -⟩
    revert A
    decide)
  revert hthrows
  decide

end Borealis
