import Borealis.Executor.Peek
import Borealis.Executor.StoreCheck

/-!
# Trees without loose chunks

A load is refused only where the way to the chunk ends in a missing node.  Walks create both
children of every node they pass, so a walk that comes to a pair of neighbouring chunks makes both
of them loadable, whether or not they lie in a block.  `Tight` says that no chunk was made this
way outside of the blocks, and that every chunk in a block without a known state has a buffer.
Stores and memsets keep it, also when they fail, as long as the pairs of chunks they come to lie in
blocks (`Backed`).
-/

namespace Borealis

open Lib

/-- The node `t` of height `h` lies in a block: every chunk below can be loaded from. -/
inductive Solid : (h : ℕ) → NodePtr → Prop
  | lazy {h n} : n.state ≠ .unknown → Solid h (.node n .null .null)
  | chunk {n} : n.state = .unknown → n.chunk ≠ none → Solid 0 (.node n .null .null)
  | split {h n l r} : n.state = .unknown → Solid h l → Solid h r → Solid (h + 1) (.node n l r)

/-- The node `t` of height `h` at `lo` lies in no block and is no chunk, is a block, or lies above
blocks.  `issued` are the addresses that were ever handed out. -/
inductive Tight (c : ℕ) (issued : ℕ → Prop) : (h lo : ℕ) → NodePtr → Prop
  | null {h lo} : Tight c issued h lo .null
  | bare {h lo n} : n.status = .unallocated → n.state = .unknown →
      Tight c issued (h + 1) lo (.node n .null .null)
  | block {h lo n l r} : n.status ≠ .unallocated →
      (∀ a, lo ≤ a → a < lo + span c h → issued a) → Solid h (.node n l r) →
      Tight c issued h lo (.node n l r)
  | path {h lo n l r} : n.status = .unallocated → n.state = .unknown →
      (∃ a, (lo ≤ a ∧ a < lo + span c (h + 1)) ∧ issued a) → Tight c issued h lo l →
      Tight c issued h (lo + span c h) r → Tight c issued (h + 1) lo (.node n l r)

/-- What a load may report of a byte that can be loaded. -/
def IntervalState.Backed (i : IntervalState) : Prop :=
  ∀ offset, ¬ (i.memState = .unknown ∧ i.data = some (none, offset))

section Loads

variable {c h lo a : ℕ} {issued issued' : ℕ → Prop} {t : NodePtr}

theorem Solid.peek (hs : Solid h t) (c lo a : ℕ) :
    ∃ i, Borealis.peek c h lo t a = .ok i ∧ i.Backed := by
  induction hs generalizing lo with
  | lazy hn =>
      refine ⟨_, peek_known hn, ?_⟩
      intro offset hbad
      exact hn hbad.1
  | chunk hn hbuffer =>
      refine ⟨_, peek_chunk hn, ?_⟩
      intro offset hbad
      exact hbuffer (congrArg Prod.fst (Option.some.inj hbad.2))
  | @split h n l r hn _ _ ihl ihr =>
      rcases Nat.lt_or_ge a (lo + span c h) with ha | ha
      · rw [peek_left hn ha]
        exact ihl lo
      · rw [peek_right hn ha]
        exact ihr (lo + span c h)

/-- A load outside of the blocks is illegal, and a load in a block finds a state or a buffer. -/
theorem Tight.peek (ht : Tight c issued h lo t) (a : ℕ) :
    Borealis.peek c h lo t a = .error (.illegalLoad a) ∨
      owners c h lo t a ≠ [] ∧ ∃ i, Borealis.peek c h lo t a = .ok i ∧ i.Backed := by
  induction ht with
  | null => exact Or.inl peek_null
  | @bare h lo n hs hn =>
      refine Or.inl ?_
      rcases Nat.lt_or_ge a (lo + span c h) with ha | ha
      · rw [peek_left hn ha, peek_null]
      · rw [peek_right hn ha, peek_null]
  | @block h lo n l r hs hall hsolid =>
      refine Or.inr ⟨?_, hsolid.peek c lo a⟩
      intro hnil
      have howner := owner_eq_nil hnil
      simp [SegmentNode.owner, hs] at howner
  | @path h lo n l r hs hn hsome hl hr ihl ihr =>
      have howner : n.owner lo = [] := by simp [SegmentNode.owner, hs]
      rcases Nat.lt_or_ge a (lo + span c h) with ha | ha
      · rw [peek_left hn ha, owners_left ha, NodePtr.force_node, howner, List.nil_append]
        exact ihl
      · rw [peek_right hn ha, owners_right ha, NodePtr.force_node, howner, List.nil_append]
        exact ihr

/-- An address with an owner was handed out. -/
theorem Tight.issued_of_owners (ht : Tight c issued h lo t) (hlo : lo ≤ a)
    (hhi : a < lo + span c h) (howners : owners c h lo t a ≠ []) : issued a := by
  induction ht with
  | null => exact absurd owners_null howners
  | bare hs => exact absurd (by simp [owners, SegmentNode.owner, hs]) howners
  | block _ hall => exact hall a hlo hhi
  | @path h lo n l r hs _ _ _ _ ihl ihr =>
      have howner : n.owner lo = [] := by simp [SegmentNode.owner, hs]
      rw [span_succ] at hhi
      rcases Nat.lt_or_ge a (lo + span c h) with ha | ha
      · rw [owners_left ha, NodePtr.force_node, howner] at howners
        exact ihl hlo ha howners
      · rw [owners_right ha, NodePtr.force_node, howner] at howners
        exact ihr ha (by omega) howners

/-- More addresses may have been handed out. -/
theorem Tight.mono (ht : Tight c issued h lo t) (hissued : ∀ a, issued a → issued' a) :
    Tight c issued' h lo t := by
  induction ht with
  | null => exact .null
  | bare hs hn => exact .bare hs hn
  | block hs hall hsolid => exact .block hs (fun a hlo hhi => hissued a (hall a hlo hhi)) hsolid
  | path hs hn hsome _ _ ihl ihr =>
      obtain ⟨a, ha, hissue⟩ := hsome
      exact .path hs hn ⟨a, ha, hissued a hissue⟩ ihl ihr

end Loads

/-! ## Forcing the children -/

section Force

variable {c h lo : ℕ} {issued : ℕ → Prop} {t : NodePtr}

theorem Solid.node_force (hs : Solid h t) : .node t.force.1 t.force.2.1 t.force.2.2 = t := by
  cases hs <;> rfl

theorem Solid.derive_eq (hs : Solid h t) (n : SegmentNode) : t.derive n = t := by
  cases hs <;> rfl

theorem Solid.force (hs : Solid (h + 1) t) :
    Solid h (t.force.2.1.derive t.force.1) ∧ Solid h (t.force.2.2.derive t.force.1) := by
  cases hs with
  | lazy hn => exact ⟨.lazy hn, .lazy hn⟩
  | split hn hl hr =>
      simp only [NodePtr.force_node, hl.derive_eq, hr.derive_eq]
      exact ⟨hl, hr⟩

theorem Solid.chunk_children (hs : Solid 0 t) : t.force.2.1 = .null ∧ t.force.2.2 = .null := by
  cases hs <;> exact ⟨rfl, rfl⟩

/-- A node that is created below a node without a state lies in no block; it must not be a
chunk. -/
theorem Tight.derive (ht : Tight c issued h lo t) {n : SegmentNode} (hn : n.state = .unknown)
    (hchunk : h = 0 → t ≠ .null) : Tight c issued h lo (t.derive n) := by
  cases ht with
  | null =>
      cases h with
      | zero => exact absurd rfl (hchunk rfl)
      | succ h => exact .bare rfl hn
  | bare hs hn' => exact .bare hs hn'
  | block hs hall hsolid => exact .block hs hall hsolid
  | path hs hn' hsome hl hr => exact .path hs hn' hsome hl hr

/-- The children of a node that is not allocated, unless it would create a chunk. -/
theorem Tight.force (ht : Tight c issued (h + 1) lo t)
    (hstatus : t.force.1.status = .unallocated)
    (hchunk : h = 0 → t.force.2.1 ≠ .null ∧ t.force.2.2 ≠ .null) :
    Tight c issued h lo (t.force.2.1.derive t.force.1) ∧
      Tight c issued h (lo + span c h) (t.force.2.2.derive t.force.1) := by
  have hn : t.force.1.state = .unknown := by
    cases ht with
    | null => rfl
    | bare _ hn => exact hn
    | block hs => exact absurd hstatus hs
    | path _ hn => exact hn
  have hchildren : Tight c issued h lo t.force.2.1 ∧
      Tight c issued h (lo + span c h) t.force.2.2 := by
    cases ht with
    | null => exact ⟨.null, .null⟩
    | bare => exact ⟨.null, .null⟩
    | block hs => exact absurd hstatus hs
    | path _ _ _ hl hr => exact ⟨hl, hr⟩
  exact ⟨hchildren.1.derive hn fun hh => (hchunk hh).1,
    hchildren.2.derive hn fun hh => (hchunk hh).2⟩

end Force

/-! ## Walks in a block -/

theorem didAlloc_of_checkAllocation {n : SegmentNode} {lo addr : ℕ} {s s' : StoreState}
    (hcheck : checkAllocation n lo addr s = .ok s')
    (hdid : n.status ≠ .unallocated ∨ s.didAlloc = true) : s'.didAlloc = true := by
  unfold checkAllocation at hcheck
  split at hcheck
  · split at hcheck
    · cases hcheck
    · split at hcheck
      · cases hcheck
      · obtain rfl := Except.ok.inj hcheck
        rfl
  · next hs =>
      obtain rfl := Except.ok.inj hcheck
      exact hdid.resolve_left hs

/-- A store into a block, whatever becomes of it, leaves every chunk with a state or a buffer. -/
theorem StoreWalk.solid {c h lo addr : ℕ} {s : StoreState} {t t' : NodePtr}
    {result : Except Fault Unit} (hw : StoreWalk c h lo addr s t result t') (hs : Solid h t)
    (hdid : t.force.1.status ≠ .unallocated ∨ s.didAlloc = true) : Solid h t' := by
  induction hw with
  | outside => exact hs
  | reject => exact hs.node_force.symm ▸ hs
  | tooLong => exact hs.node_force.symm ▸ hs
  | unallocated _ hcheck _ hno =>
      rw [didAlloc_of_checkAllocation hcheck hdid] at hno
      cases hno
  | write =>
      obtain ⟨hl, hr⟩ := hs.chunk_children
      rw [hl, hr]
      exact .chunk rfl (by simp)
  | splitFail _ hcheck _ _ _ ih =>
      have hdid' := didAlloc_of_checkAllocation hcheck hdid
      exact .split rfl (ih hs.force.1 (Or.inr hdid')) hs.force.2
  | split _ hcheck _ _ _ _ ihl ihr =>
      have hdid' := didAlloc_of_checkAllocation hcheck hdid
      exact .split rfl (ihl hs.force.1 (Or.inr hdid')) (ihr hs.force.2 (Or.inr hdid'))
  | left _ hcheck _ _ ih =>
      have hdid' := didAlloc_of_checkAllocation hcheck hdid
      exact .split rfl (ih hs.force.1 (Or.inr hdid')) hs.force.2
  | right _ hcheck _ ih =>
      have hdid' := didAlloc_of_checkAllocation hcheck hdid
      exact .split rfl hs.force.1 (ih hs.force.2 (Or.inr hdid'))

/-- A memset in a block, whatever becomes of it, leaves every chunk with a state or a buffer. -/
theorem MemsetWalk.solid {c h lo addr : ℕ} {fill : UInt8} {s : MemsetState} {t t' : NodePtr}
    {result : Except Fault Unit} (hw : MemsetWalk c fill h lo addr s t result t')
    (hs : Solid h t) : Solid h t' := by
  induction hw with
  | outside => exact hs
  | whole =>
      obtain ⟨hl, hr⟩ := hs.chunk_children
      rw [hl, hr]
      exact .lazy (by simp)
  | pastEnd => exact hs.node_force.symm ▸ hs
  | part =>
      obtain ⟨hl, hr⟩ := hs.chunk_children
      rw [hl, hr]
      exact .chunk rfl (by simp)
  | skip => exact hs.node_force.symm ▸ hs
  | lazy _ hn =>
      cases hs with
      | lazy => exact .lazy (by simp)
      | split hn' => exact absurd hn' hn
  | splitFail _ _ _ _ ih => exact .split rfl (ih hs.force.1) hs.force.2
  | split _ _ _ _ _ ihl ihr => exact .split rfl (ihl hs.force.1) (ihr hs.force.2)
  | left _ _ ih => exact .split rfl (ih hs.force.1) hs.force.2
  | right _ _ ih => exact .split rfl hs.force.1 (ih hs.force.2)

/-- A block stays a block. -/
theorem Tight.block_of_solid {c h lo : ℕ} {issued : ℕ → Prop} {t t' : NodePtr}
    (ht : Tight c issued h lo t) (hstatus : t.force.1.status ≠ .unallocated)
    (hstatus' : t'.force.1.status = t.force.1.status) (hsolid : Solid h t → Solid h t') :
    Tight c issued h lo t' := by
  have hblock : (∀ a, lo ≤ a → a < lo + span c h → issued a) ∧ Solid h t := by
    cases ht with
    | null => exact absurd rfl hstatus
    | bare hfree => exact absurd hfree hstatus
    | block _ hall hs => exact ⟨hall, hs⟩
    | path hfree => exact absurd hfree hstatus
  have hs' := hsolid hblock.2
  rw [← hstatus'] at hstatus
  cases t' with
  | null => cases hs'
  | node n l r => exact .block hstatus hblock.1 hs'

/-! ## Walks above the blocks -/

/-- The number of bytes behind `addr` that an operation on `size` bytes comes to: where the end of
its range wraps, it is not split at any midpoint. -/
def reach (addr size : ℕ) : ℕ :=
  if addr + size < 2 ^ 64 then size else 0

/-- Each chunk that an operation comes to, and each pair of chunks, has an owner for each
address. -/
def Paired (c h lo : ℕ) (t : NodePtr) (addr size : ℕ) : Prop :=
  ∀ k q, k ≤ 1 → IsNode c h lo k q → q < addr + max 1 (reach addr size) → addr < q + span c k →
    ∀ a, q ≤ a → a < q + span c k → owners c h lo t a ≠ []

namespace Paired

variable {c h lo addr size : ℕ} {t : NodePtr}

theorem left (hp : Paired c (h + 1) lo t addr size) (hstatus : t.force.1.status = .unallocated) :
    Paired c h lo (t.force.2.1.derive t.force.1) addr size := by
  intro k q hk hq hlt hgt a hlo hhi
  have hend := hq.end_le
  have howner : t.force.1.owner lo = [] := by simp [SegmentNode.owner, hstatus]
  have hparent := hp k q hk hq.left hlt hgt a hlo hhi
  rw [owners_left (by omega), howner, List.nil_append] at hparent
  rwa [owners_derive]

theorem right (hp : Paired c (h + 1) lo t addr size) (hstatus : t.force.1.status = .unallocated) :
    Paired c h (lo + span c h) (t.force.2.2.derive t.force.1) addr size := by
  intro k q hk hq hlt hgt a hlo hhi
  have hbase := hq.le_base
  have howner : t.force.1.owner lo = [] := by simp [SegmentNode.owner, hstatus]
  have hparent := hp k q hk hq.right hlt hgt a hlo hhi
  rw [owners_right (by omega), howner, List.nil_append] at hparent
  rwa [owners_derive]

/-- The end of a range that is split does not wrap. -/
theorem lt_of_split {mid : ℕ} (hlt : addr < mid) (hmid : mid < 2 ^ 64) (hsize : size < 2 ^ 64)
    (hgt : mid < ptrAdd addr size) : addr + size < 2 ^ 64 ∧ mid < addr + size := by
  unfold ptrAdd at hgt
  omega

theorem take (hp : Paired c h lo t addr size) {mid : ℕ} (hlt : addr < mid) (hmid : mid < 2 ^ 64)
    (hsize : size < 2 ^ 64) (hgt : mid < ptrAdd addr size) :
    Paired c h lo t addr (mid - addr) := by
  obtain ⟨hwrap, hend⟩ := lt_of_split hlt hmid hsize hgt
  intro k q hk hq hq'
  refine hp k q hk hq ?_
  have hreach : reach addr (mid - addr) = mid - addr := if_pos (by omega)
  have hreach' : reach addr size = size := if_pos hwrap
  omega

theorem drop (hp : Paired c h lo t addr size) (hlt : addr < lo) (hmid : lo < 2 ^ 64)
    (hsize : size < 2 ^ 64) (hgt : lo < ptrAdd addr size) :
    Paired c h lo t lo (size - (lo - addr)) := by
  obtain ⟨hwrap, hend⟩ := lt_of_split hlt hmid hsize hgt
  intro k q hk hq hq' hq''
  have hbase := hq.le_base
  have hreach : reach lo (size - (lo - addr)) = size - (lo - addr) := if_pos (by omega)
  have hreach' : reach addr size = size := if_pos hwrap
  exact hp k q hk hq (by omega) (by omega)

/-- The node of a chunk that an operation comes to is allocated. -/
theorem chunk (hp : Paired c 0 lo t addr size) (haddr : lo ≤ addr ∧ addr < lo + c) :
    t.force.1.status ≠ .unallocated := by
  intro hstatus
  have howners := hp 0 lo (by omega) (.here 0 lo) (by omega) (by rw [span_zero]; omega) addr
    haddr.1 (by rw [span_zero]; omega)
  exact howners (by simp [owners, SegmentNode.owner, hstatus])

/-- Both chunks of a pair that an operation comes to exist. -/
theorem pair (hc : 0 < c) (hp : Paired c (h + 1) lo t addr size)
    (haddr : lo ≤ addr ∧ addr < lo + span c (h + 1)) (hstatus : t.force.1.status = .unallocated)
    (hh : h = 0) : t.force.2.1 ≠ .null ∧ t.force.2.2 ≠ .null := by
  subst hh
  have howner : t.force.1.owner lo = [] := by simp [SegmentNode.owner, hstatus]
  have hall := hp 1 lo le_rfl (.here 1 lo) (by omega) haddr.2
  rw [span_succ, span_zero] at hall
  have hl := hall lo le_rfl (by omega)
  have hr := hall (lo + c) (by omega) (by omega)
  rw [owners_left (by rw [span_zero]; omega), howner, List.nil_append] at hl
  rw [owners_right (by rw [span_zero]), howner, List.nil_append] at hr
  exact ⟨fun hnull => hl (hnull ▸ owners_null), fun hnull => hr (hnull ▸ owners_null)⟩

/-- An address that an operation starts from was handed out. -/
theorem issued {issued : ℕ → Prop} (hp : Paired c h lo t addr size)
    (ht : Tight c issued h lo t) (haddr : lo ≤ addr ∧ addr < lo + span c h) : issued addr := by
  obtain ⟨q, hq, hlo, hhi⟩ := IsNode.exists_leaf haddr.1 haddr.2
  have howners := hp 0 q (by omega) hq (by omega) (by rwa [span_zero]) addr hlo (by rwa [span_zero])
  exact ht.issued_of_owners haddr.1 haddr.2 howners

/-- A step down on the path to the address leaves a tight node, if the child that it comes to is
tight afterwards. -/
theorem tight_left {issued : ℕ → Prop} (hc : 0 < c) (hp : Paired c (h + 1) lo t addr size)
    (ht : Tight c issued (h + 1) lo t) (hs : t.force.1.status = .unallocated)
    (haddr : lo ≤ addr ∧ addr < lo + span c h) {left' : NodePtr}
    (hleft : Tight c issued h lo (t.force.2.1.derive t.force.1) → Tight c issued h lo left') :
    Tight c issued (h + 1) lo
      (.node t.force.1.invalidate left' (t.force.2.2.derive t.force.1)) := by
  have hin : lo ≤ addr ∧ addr < lo + span c (h + 1) := by
    rw [span_succ]
    omega
  obtain ⟨hl, hr⟩ := ht.force hs (hp.pair hc hin hs)
  exact .path hs rfl ⟨addr, hin, hp.issued ht hin⟩ (hleft hl) hr

theorem tight_right {issued : ℕ → Prop} (hc : 0 < c) (hp : Paired c (h + 1) lo t addr size)
    (ht : Tight c issued (h + 1) lo t) (hs : t.force.1.status = .unallocated)
    (haddr : lo + span c h ≤ addr ∧ addr < lo + span c h + span c h) {right' : NodePtr}
    (hright : Tight c issued h (lo + span c h) (t.force.2.2.derive t.force.1) →
      Tight c issued h (lo + span c h) right') :
    Tight c issued (h + 1) lo
      (.node t.force.1.invalidate (t.force.2.1.derive t.force.1) right') := by
  have hin : lo ≤ addr ∧ addr < lo + span c (h + 1) := by
    rw [span_succ]
    omega
  obtain ⟨hl, hr⟩ := ht.force hs (hp.pair hc hin hs)
  exact .path hs rfl ⟨addr, hin, hp.issued ht hin⟩ hl (hright hr)

end Paired

/-- A store, whatever becomes of it, makes no loose chunk if it comes only to pairs of chunks that
have owners. -/
theorem StoreWalk.tight {c h lo addr : ℕ} {s : StoreState} {t t' : NodePtr}
    {result : Except Fault Unit} {issued : ℕ → Prop} (hc : 0 < c)
    (hw : StoreWalk c h lo addr s t result t') (hsize : s.data.length < 2 ^ 64)
    (hmax : lo + span c h < 2 ^ 64) (ht : Tight c issued h lo t)
    (hp : Paired c h lo t addr s.data.length) : Tight c issued h lo t' := by
  have hblock : ∀ {h lo addr s t result t'}, StoreWalk c h lo addr s t result t' →
      Tight c issued h lo t → t.force.1.status ≠ .unallocated → Tight c issued h lo t' :=
    fun hw ht hs => ht.block_of_solid hs hw.status_eq fun hsolid => hw.solid hsolid (Or.inl hs)
  induction hw with
  | outside => exact ht
  | @reject h lo addr s t e haddr hcheck =>
      refine hblock (.reject haddr hcheck) ht ?_
      intro hs
      simp [checkAllocation, hs] at hcheck
  | tooLong haddr hcheck hlen => exact hblock (.tooLong haddr hcheck hlen) ht (hp.chunk haddr)
  | unallocated haddr hcheck hlen hno =>
      exact hblock (.unallocated haddr hcheck hlen hno) ht (hp.chunk haddr)
  | write haddr hcheck hlen hyes =>
      exact hblock (.write haddr hcheck hlen hyes) ht (hp.chunk haddr)
  | @splitFail h lo addr s s' t e left' haddr hcheck hlt hgt hleft ih =>
      by_cases hs : t.force.1.status = .unallocated
      · obtain rfl : s = s' := by simpa [checkAllocation, hs] using hcheck
        have hmid : lo + span c h < 2 ^ 64 := by
          rw [span_succ] at hmax
          omega
        have hsome : ∃ a, (lo ≤ a ∧ a < lo + span c (h + 1)) ∧ issued a :=
          ⟨addr, haddr, hp.issued ht haddr⟩
        obtain ⟨hl, hr⟩ := ht.force hs (hp.pair hc haddr hs)
        have hlen := length_take_split (s := s) rfl (Paired.lt_of_split hlt hmid hsize hgt).2
        refine .path hs rfl hsome (ih ?_ hmid hl ?_) hr
        · simp only [hlen]
          omega
        · simpa only [hlen] using (hp.left hs).take hlt hmid hsize hgt
      · exact hblock (.splitFail haddr hcheck hlt hgt hleft) ht hs
  | @split h lo addr s s' t result left' right' haddr hcheck hlt hgt hleft hright ihl ihr =>
      by_cases hs : t.force.1.status = .unallocated
      · obtain rfl : s = s' := by simpa [checkAllocation, hs] using hcheck
        have hmax' : lo + span c h + span c h < 2 ^ 64 := by
          rw [span_succ] at hmax
          omega
        have hsome : ∃ a, (lo ≤ a ∧ a < lo + span c (h + 1)) ∧ issued a :=
          ⟨addr, haddr, hp.issued ht haddr⟩
        obtain ⟨hl, hr⟩ := ht.force hs (hp.pair hc haddr hs)
        have hlen := length_take_split (s := s) rfl
          (Paired.lt_of_split hlt (by omega) hsize hgt).2
        refine .path hs rfl hsome (ihl ?_ (by omega) hl ?_) (ihr ?_ hmax' hr ?_)
        · simp only [hlen]
          omega
        · simpa only [hlen] using (hp.left hs).take hlt (by omega) hsize hgt
        · simp only [List.length_drop]
          omega
        · simpa only [List.length_drop] using (hp.right hs).drop hlt (by omega) hsize hgt
      · exact hblock (.split haddr hcheck hlt hgt hleft hright) ht hs
  | @left h lo addr s s' t result left' haddr hcheck hgt hleft ih =>
      by_cases hs : t.force.1.status = .unallocated
      · obtain rfl : s = s' := by simpa [checkAllocation, hs] using hcheck
        rw [span_succ] at hmax
        exact hp.tight_left hc ht hs haddr fun hl => ih hsize (by omega) hl (hp.left hs)
      · exact hblock (.left haddr hcheck hgt hleft) ht hs
  | @right h lo addr s s' t result right' haddr hcheck hright ih =>
      by_cases hs : t.force.1.status = .unallocated
      · obtain rfl : s = s' := by simpa [checkAllocation, hs] using hcheck
        rw [span_succ] at hmax
        exact hp.tight_right hc ht hs haddr fun hr => ih hsize (by omega) hr (hp.right hs)
      · exact hblock (.right haddr hcheck hright) ht hs

/-- A memset, whatever becomes of it, makes no loose chunk if it comes only to pairs of chunks that
have owners. -/
theorem MemsetWalk.tight {c h lo addr : ℕ} {fill : UInt8} {s : MemsetState} {t t' : NodePtr}
    {result : Except Fault Unit} {issued : ℕ → Prop} (hc : 0 < c)
    (hw : MemsetWalk c fill h lo addr s t result t') (hsize : s.size < 2 ^ 64)
    (hmax : lo + span c h < 2 ^ 64) (ht : Tight c issued h lo t)
    (hp : Paired c h lo t addr s.size) : Tight c issued h lo t' := by
  have hblock : ∀ {h lo addr s t result t'}, MemsetWalk c fill h lo addr s t result t' →
      Tight c issued h lo t → t.force.1.status ≠ .unallocated → Tight c issued h lo t' :=
    fun hw ht hs => ht.block_of_solid hs hw.status_eq hw.solid
  induction hw with
  | outside => exact ht
  | whole haddr heq => exact hblock (.whole haddr heq) ht (hp.chunk haddr)
  | pastEnd haddr hlt hend => exact hblock (.pastEnd haddr hlt hend) ht (hp.chunk haddr)
  | part haddr hlt hend => exact hblock (.part haddr hlt hend) ht (hp.chunk haddr)
  | skip haddr hgt => exact hblock (.skip haddr hgt) ht (hp.chunk haddr)
  | lazy haddr hn hdest hend =>
      refine hblock (.lazy haddr hn hdest hend) ht ?_
      -- only blocks have a known state
      intro hs
      cases ht with
      | null => exact hn rfl
      | bare _ hn' => exact hn hn'
      | block hs' => exact hs' hs
      | path _ hn' => exact hn hn'
  | @splitFail h lo addr s t e left' haddr hlt hgt hleft ih =>
      by_cases hs : t.force.1.status = .unallocated
      · have hmid : lo + span c h < 2 ^ 64 := by
          rw [span_succ] at hmax
          omega
        obtain ⟨hl, hr⟩ := ht.force hs (hp.pair hc haddr hs)
        exact .path hs rfl ⟨addr, haddr, hp.issued ht haddr⟩
          (ih (by simp only; omega) hmid hl ((hp.left hs).take hlt hmid hsize hgt)) hr
      · exact hblock (.splitFail haddr hlt hgt hleft) ht hs
  | @split h lo addr s t result left' right' haddr hlt hgt hleft hright ihl ihr =>
      by_cases hs : t.force.1.status = .unallocated
      · have hmax' : lo + span c h + span c h < 2 ^ 64 := by
          rw [span_succ] at hmax
          omega
        obtain ⟨hl, hr⟩ := ht.force hs (hp.pair hc haddr hs)
        exact .path hs rfl ⟨addr, haddr, hp.issued ht haddr⟩
          (ihl (by simp only; omega) (by omega) hl ((hp.left hs).take hlt (by omega) hsize hgt))
          (ihr (by simp only; omega) hmax' hr ((hp.right hs).drop hlt (by omega) hsize hgt))
      · exact hblock (.split haddr hlt hgt hleft hright) ht hs
  | @left h lo addr s t result left' haddr hleft ih =>
      by_cases hs : t.force.1.status = .unallocated
      · rw [span_succ] at hmax
        exact hp.tight_left hc ht hs haddr fun hl => ih hsize (by omega) hl (hp.left hs)
      · exact hblock (.left haddr hleft) ht hs
  | @right h lo addr s t result right' haddr hright ih =>
      by_cases hs : t.force.1.status = .unallocated
      · rw [span_succ] at hmax
        exact hp.tight_right hc ht hs haddr fun hr => ih hsize (by omega) hr (hp.right hs)
      · exact hblock (.right haddr hright) ht hs

/-! ## Allocation and release -/

/-- A node on the way of an allocation: it is tight, or a chunk that was just created. -/
def Entered (c : ℕ) (issued : ℕ → Prop) (h lo : ℕ) (t : NodePtr) : Prop :=
  Tight c issued h lo t ∨
    h = 0 ∧ t.force.1.status = .unallocated ∧ t.force.2.1 = .null ∧ t.force.2.2 = .null

/-- The other chunk of the pair of an allocated chunk has owners. -/
def Neighboured (c h lo : ℕ) (t : NodePtr) (k p : ℕ) : Prop :=
  k = 0 → ∀ q, IsNode c h lo 1 q → q ≤ p → p < q + span c 1 → ∀ a, q ≤ a → a < q + span c 1 →
    ¬ (p ≤ a ∧ a < p + span c k) → owners c h lo t a ≠ []

section Alloc

variable {c h lo k p : ℕ} {issued : ℕ → Prop} {t : NodePtr}

theorem Tight.entered (ht : Tight c issued h lo t) {n : SegmentNode} (hn : n.state = .unknown) :
    Entered c issued h lo (t.derive n) := by
  by_cases hchunk : h = 0 ∧ t = .null
  · obtain ⟨rfl, rfl⟩ := hchunk
    exact Or.inr ⟨rfl, rfl, rfl, rfl⟩
  · exact Or.inl (ht.derive hn fun hh hnull => hchunk ⟨hh, hnull⟩)

/-- A node over addresses that were never handed out has no children. -/
theorem Entered.childless (hc : 0 < c) (ht : Entered c issued h lo t)
    (hnew : ∀ a, lo ≤ a → a < lo + span c h → ¬ issued a) :
    t.force.2.1 = .null ∧ t.force.2.2 = .null := by
  have hpos := span_pos hc h
  rcases ht with ht | ⟨-, -, hl, hr⟩
  · cases ht with
    | null => exact ⟨rfl, rfl⟩
    | bare => exact ⟨rfl, rfl⟩
    | block _ hall => exact absurd (hall lo le_rfl (by omega)) (hnew lo le_rfl (by omega))
    | path _ _ hsome =>
        obtain ⟨a, ha, hissue⟩ := hsome
        exact absurd hissue (hnew a ha.1 ha.2)
  · exact ⟨hl, hr⟩

/-- The node above an address that was never handed out, and its children. -/
theorem Entered.above (ht : Entered c issued (h + 1) lo t) {a : ℕ}
    (ha : lo ≤ a ∧ a < lo + span c (h + 1)) (hnew : ¬ issued a) :
    t.force.1.status = .unallocated ∧ t.force.1.state = .unknown ∧
      Tight c issued h lo t.force.2.1 ∧ Tight c issued h (lo + span c h) t.force.2.2 := by
  rcases ht with ht | ⟨hh, -⟩
  · cases ht with
    | null => exact ⟨rfl, rfl, .null, .null⟩
    | bare hs hn => exact ⟨hs, hn, .null, .null⟩
    | block _ hall => exact absurd (hall a ha.1 ha.2) hnew
    | path hs hn _ hl hr => exact ⟨hs, hn, hl, hr⟩
  · exact absurd hh (Nat.succ_ne_zero h)

theorem Neighboured.left (hp : Neighboured c (h + 1) lo t k p)
    (hs : t.force.1.status = .unallocated) :
    Neighboured c h lo (t.force.2.1.derive t.force.1) k p := by
  intro hk q hq hle hlt a hlo hhi hout
  have hend := hq.end_le
  have howner : t.force.1.owner lo = [] := by simp [SegmentNode.owner, hs]
  have hparent := hp hk q hq.left hle hlt a hlo hhi hout
  rw [owners_left (by omega), howner, List.nil_append] at hparent
  rwa [owners_derive]

theorem Neighboured.right (hp : Neighboured c (h + 1) lo t k p)
    (hs : t.force.1.status = .unallocated) :
    Neighboured c h (lo + span c h) (t.force.2.2.derive t.force.1) k p := by
  intro hk q hq hle hlt a hlo hhi hout
  have hbase := hq.le_base
  have howner : t.force.1.owner lo = [] := by simp [SegmentNode.owner, hs]
  have hparent := hp hk q hq.right hle hlt a hlo hhi hout
  rw [owners_right (by omega), howner, List.nil_append] at hparent
  rwa [owners_derive]

end Alloc

/-- Allocation of addresses that were never handed out makes no loose chunk if the other chunk of
the pair has owners. -/
theorem tight_alloc {c size k p : ℕ} {issued : ℕ → Prop} {state : MemoryState}
    {status : MemoryStatus} (hc : 0 < c) (hlevel : Level c size k)
    (hstatus : status ≠ .unallocated) (hstate : state ≠ .unknown) {h lo : ℕ}
    (hnode : IsNode c h lo k p) (t : NodePtr) (ht : Tight c issued h lo t)
    (hnew : ∀ a, p ≤ a → a < p + span c k → ¬ issued a) (hp : Neighboured c h lo t k p) :
    Tight c (fun a => (p ≤ a ∧ a < p + span c k) ∨ issued a) h lo
      (descend (allocTraverser state status size) c h lo () p t).2 := by
  have hk := span_pos hc k
  refine (descend_alloc (R := fun h lo t t' => Entered c issued h lo t →
    Neighboured c h lo t k p →
    Tight c (fun a => (p ≤ a ∧ a < p + span c k) ∨ issued a) h lo t') hc hlevel ?here ?left ?right
    hnode t).2 (Or.inl ht) hp
  case here =>
    intro t ht _
    obtain ⟨hl, hr⟩ := ht.childless hc hnew
    rw [hl, hr]
    exact .block hstatus (fun a hlo hhi => Or.inl ⟨hlo, hhi⟩) (.lazy hstate)
  case left =>
    intro h lo t l' hn ih ht hp
    have hbase := hn.le_base
    have hend := hn.end_le
    have hin : lo ≤ p ∧ p < lo + span c (h + 1) := ⟨hbase, by rw [span_succ]; omega⟩
    obtain ⟨hs, hstate', hl, hr⟩ := ht.above hin (hnew p le_rfl (by omega))
    have howner : t.force.1.owner lo = [] := by simp [SegmentNode.owner, hs]
    refine .path hs rfl ⟨p, hin, Or.inl ⟨le_rfl, by omega⟩⟩ (ih (hl.entered hstate') (hp.left hs))
      ((hr.derive hstate' ?_).mono fun a => Or.inr)
    -- the right child is created only if it is no chunk
    rintro rfl hnull
    obtain rfl : k = 0 := Nat.le_zero.mp hn.height_le
    have howners := hp rfl lo (.here 1 lo) hin.1 hin.2 (lo + span c 0) (by omega)
      (by rw [span_succ]; omega) (by omega)
    rw [owners_right le_rfl, howner, hnull] at howners
    exact howners owners_null
  case right =>
    intro h lo t r' hn ih ht hp
    have hbase := hn.le_base
    have hend := hn.end_le
    have hpos := span_pos hc h
    have hin : lo ≤ p ∧ p < lo + span c (h + 1) := ⟨by omega, by rw [span_succ]; omega⟩
    obtain ⟨hs, hstate', hl, hr⟩ := ht.above hin (hnew p le_rfl (by omega))
    have howner : t.force.1.owner lo = [] := by simp [SegmentNode.owner, hs]
    refine .path hs rfl ⟨p, hin, Or.inl ⟨le_rfl, by omega⟩⟩
      ((hl.derive hstate' ?_).mono fun a => Or.inr) (ih (hr.entered hstate') (hp.right hs))
    rintro rfl hnull
    obtain rfl : k = 0 := Nat.le_zero.mp hn.height_le
    have howners := hp rfl lo (.here 1 lo) hin.1 hin.2 lo le_rfl (by rw [span_succ]; omega)
      (by omega)
    rw [owners_left (by omega), howner, hnull] at howners
    exact howners owners_null

/-- A release that goes on to a child makes no loose chunk if it makes none where the node is on the
way to blocks: the other nodes are kept as they are. -/
theorem FreeWalk.tight_of_path {c h lo addr : ℕ} {st : MemoryStatus} {n : SegmentNode}
    {l r t' : NodePtr} {result : Except Fault Unit} {issued : ℕ → Prop} (hc : 0 < c)
    (hst : st ≠ .unallocated) (hw : FreeWalk c st addr (h + 1) lo (.node n l r) result t')
    (hmiss : ¬ (lo = addr ∧ n.status = st)) (ht : Tight c issued (h + 1) lo (.node n l r))
    (hone : SingleOwner c (h + 1) lo (.node n l r))
    (hpath : n.status = .unallocated → n.state = .unknown →
      (∃ a, (lo ≤ a ∧ a < lo + span c (h + 1)) ∧ issued a) → Tight c issued h lo l →
      Tight c issued h (lo + span c h) r → Tight c issued (h + 1) lo t') :
    Tight c issued (h + 1) lo t' := by
  have hsame := hw.eq_of_kept hc hst
  have hkept := SegmentNode.keptBy_of_miss hmiss
  cases ht with
  | bare hs hn =>
      rw [hsame fun a _ _ o ho => hkept o (by simpa [owners] using ho)]
      exact .bare hs hn
  | block hs hall hsolid =>
      rw [hsame fun a hlo hhi o ho => hkept o (hone.owners_eq hs hlo hhi ▸ ho)]
      exact .block hs hall hsolid
  | path hs hn hsome hl hr => exact hpath hs hn hsome hl hr

/-- A release makes no loose chunk. -/
theorem FreeWalk.tight {c h lo addr : ℕ} {st : MemoryStatus} {t t' : NodePtr}
    {result : Except Fault Unit} {issued : ℕ → Prop} (hc : 0 < c) (hst : st ≠ .unallocated)
    (hw : FreeWalk c st addr h lo t result t') (ht : Tight c issued h lo t)
    (hone : SingleOwner c h lo t) : Tight c issued h lo t' := by
  induction hw with
  | outside => exact ht
  | missing => exact ht
  | hit => exact .null
  | miss => exact ht
  | left haddr hmiss hleft ih =>
      apply (FreeWalk.left haddr hmiss hleft).tight_of_path hc hst hmiss ht hone
      intro hs hn hsome hl hr
      exact .path hs hn hsome (ih hl hone.left) hr
  | right haddr hmiss hright ih =>
      apply (FreeWalk.right haddr hmiss hright).tight_of_path hc hst hmiss ht hone
      intro hs hn hsome hl hr
      exact .path hs hn hsome hl (ih hr hone.right)

end Borealis
