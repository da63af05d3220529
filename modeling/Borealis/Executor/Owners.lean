import Borealis.Executor.FreeWalk
import Borealis.Executor.MemsetWalk
import Borealis.Executor.Request
import Borealis.Executor.StoreWalk

/-!
# The allocated nodes over an address

`owners c h lo t a` lists the allocated nodes on the path from `t` to the chunk of `a`.  Stores and
memsets leave it alone, an allocation adds the new node over its block, and a release takes away
the node it finds.
-/

namespace Borealis

open Lib

/-- An allocated node: its first address, the bytes that were asked for and its status. -/
structure Owner where
  base : ℕ
  amount : ℕ
  status : MemoryStatus
deriving DecidableEq

/-- The bytes that were asked for. -/
def Owner.Contains (o : Owner) (a : ℕ) : Prop :=
  o.base ≤ a ∧ a < o.base + o.amount

/-- The node itself, if it is allocated. -/
def SegmentNode.owner (n : SegmentNode) (lo : ℕ) : List Owner :=
  if n.status = .unallocated then [] else [⟨lo, n.reallyAllocated, n.status⟩]

/-- The allocated nodes over the address `a`, from the root down. -/
def owners (c : ℕ) : (h lo : ℕ) → NodePtr → ℕ → List Owner
  | 0, lo, t, _ => t.force.1.owner lo
  | h + 1, lo, t, a =>
    t.force.1.owner lo ++
      if a < lo + span c h then owners c h lo t.force.2.1 a
      else owners c h (lo + span c h) t.force.2.2 a

@[simp] theorem SegmentNode.invalidate_owner (n : SegmentNode) (lo : ℕ) :
    n.invalidate.owner lo = n.owner lo := rfl

@[simp] theorem NodePtr.force_node (n : SegmentNode) (l r : NodePtr) :
    (NodePtr.node n l r).force = (n, l, r) := rfl

theorem SegmentNode.mem_owner {n : SegmentNode} {lo : ℕ} {o : Owner} :
    o ∈ n.owner lo ↔ n.status ≠ .unallocated ∧ o = ⟨lo, n.reallyAllocated, n.status⟩ := by
  unfold owner
  split <;> simp_all

section Owners

variable {c h lo a : ℕ} {n : SegmentNode} {l r t : NodePtr}

@[simp] theorem owners_null : owners c h lo .null a = [] := by
  induction h generalizing lo with
  | zero => rfl
  | succ h ih => simp [owners, NodePtr.force, SegmentNode.owner, ih]

@[simp] theorem owners_derive : owners c h lo (t.derive n) a = owners c h lo t a := by
  cases t with
  | null => cases h <;> simp [NodePtr.derive, owners, NodePtr.force, SegmentNode.owner]
  | node _ _ _ => rfl

theorem owners_left (ha : a < lo + span c h) :
    owners c (h + 1) lo t a = t.force.1.owner lo ++ owners c h lo t.force.2.1 a := by
  simp only [owners, ha, if_true]

theorem owners_right (ha : lo + span c h ≤ a) :
    owners c (h + 1) lo t a = t.force.1.owner lo ++ owners c h (lo + span c h) t.force.2.2 a := by
  simp only [owners, Nat.not_lt.mpr ha, if_false]

/-- Allocated nodes over an address of a node start in it. -/
theorem base_mem_of_mem_owners {o : Owner} (hc : 0 < c) (ho : o ∈ owners c h lo t a) :
    lo ≤ o.base ∧ o.base < lo + span c h := by
  induction h generalizing lo t with
  | zero =>
      obtain ⟨-, rfl⟩ := SegmentNode.mem_owner.mp ho
      simp only [span_zero]
      omega
  | succ h ih =>
      have hh := span_pos hc h
      rw [span_succ]
      simp only [owners, List.mem_append] at ho
      rcases ho with ho | ho
      · obtain ⟨-, rfl⟩ := SegmentNode.mem_owner.mp ho
        simp only
        omega
      · split at ho
        · have := ih ho
          omega
        · have := ih ho
          omega

/-- A change of one child and of the lazy state keeps the owners if it keeps those of the child. -/
theorem owners_congr {n' : SegmentNode} {l' r' : NodePtr} (hn : n'.owner lo = t.force.1.owner lo)
    (hl : owners c h lo l' a = owners c h lo t.force.2.1 a)
    (hr : owners c h (lo + span c h) r' a = owners c h (lo + span c h) t.force.2.2 a) :
    owners c (h + 1) lo (.node n' l' r') a = owners c (h + 1) lo t a := by
  simp only [owners, NodePtr.force_node, hn, hl, hr]

end Owners

/-- At most one allocated node lies over each address of the node. -/
def SingleOwner (c h lo : ℕ) (t : NodePtr) : Prop :=
  ∀ a, lo ≤ a → a < lo + span c h → (owners c h lo t a).length ≤ 1

section SingleOwner

variable {c h lo : ℕ} {t : NodePtr}

theorem SingleOwner.left (hone : SingleOwner c (h + 1) lo t) : SingleOwner c h lo t.force.2.1 := by
  intro a hlo hhi
  have hle := hone a hlo (by rw [span_succ]; omega)
  rw [owners_left hhi, List.length_append] at hle
  omega

theorem SingleOwner.right (hone : SingleOwner c (h + 1) lo t) :
    SingleOwner c h (lo + span c h) t.force.2.2 := by
  intro a hlo hhi
  have hle := hone a (by omega) (by rw [span_succ]; omega)
  rw [owners_right hlo, List.length_append] at hle
  omega

/-- Below an allocated node there is no other owner. -/
theorem SingleOwner.owners_eq (hone : SingleOwner c h lo t)
    (hstatus : t.force.1.status ≠ .unallocated) {a : ℕ} (hlo : lo ≤ a) (hhi : a < lo + span c h) :
    owners c h lo t a = t.force.1.owner lo := by
  cases h with
  | zero => rfl
  | succ h =>
      have hle := hone a hlo hhi
      simp only [owners, SegmentNode.owner, hstatus, if_false, List.length_append,
        List.length_singleton] at hle ⊢
      have hnil := List.length_eq_zero_iff.mp (Nat.le_zero.mp (Nat.le_of_add_le_add_left hle))
      rw [hnil, List.append_nil]

end SingleOwner

/-! ## Stores and memsets -/

/-- A store changes no owner. -/
theorem StoreWalk.owners_eq {c h lo addr : ℕ} {s : StoreState} {t t' : NodePtr}
    {result : Except Fault Unit} (hw : StoreWalk c h lo addr s t result t') (a : ℕ) :
    owners c h lo t' a = owners c h lo t a := by
  induction hw with
  | outside => rfl
  | @reject h lo addr s t e => cases h <;> rfl
  | tooLong => rfl
  | unallocated => rfl
  | write => rfl
  | splitFail _ _ _ _ _ ih => exact owners_congr rfl (ih.trans owners_derive) owners_derive
  | split _ _ _ _ _ _ ih ih' =>
      exact owners_congr rfl (ih.trans owners_derive) (ih'.trans owners_derive)
  | left _ _ _ _ ih => exact owners_congr rfl (ih.trans owners_derive) owners_derive
  | right _ _ _ ih => exact owners_congr rfl owners_derive (ih.trans owners_derive)

/-- A memset changes no owner. -/
theorem MemsetWalk.owners_eq {c h lo addr : ℕ} {fill : UInt8} {s : MemsetState} {t t' : NodePtr}
    {result : Except Fault Unit} (hw : MemsetWalk c fill h lo addr s t result t') (a : ℕ) :
    owners c h lo t' a = owners c h lo t a := by
  induction hw with
  | outside => rfl
  | whole => rfl
  | pastEnd => rfl
  | part => rfl
  | skip => rfl
  | lazy => rfl
  | splitFail _ _ _ _ ih => exact owners_congr rfl (ih.trans owners_derive) owners_derive
  | split _ _ _ _ _ ih ih' =>
      exact owners_congr rfl (ih.trans owners_derive) (ih'.trans owners_derive)
  | left _ _ ih => exact owners_congr rfl (ih.trans owners_derive) owners_derive
  | right _ _ ih => exact owners_congr rfl owners_derive (ih.trans owners_derive)

/-! ## Allocation -/

/-- The children of a node have an owner over an address only if the node has. -/
theorem owners_eq_nil_left {c h lo a : ℕ} {t : NodePtr} (ha : a < lo + span c h)
    (hnil : owners c (h + 1) lo t a = []) :
    t.force.1.owner lo = [] ∧ owners c h lo t.force.2.1 a = [] := by
  rw [owners_left ha] at hnil
  exact List.append_eq_nil_iff.mp hnil

theorem owners_eq_nil_right {c h lo a : ℕ} {t : NodePtr} (ha : lo + span c h ≤ a)
    (hnil : owners c (h + 1) lo t a = []) :
    t.force.1.owner lo = [] ∧ owners c h (lo + span c h) t.force.2.2 a = [] := by
  rw [owners_right ha] at hnil
  exact List.append_eq_nil_iff.mp hnil

theorem SegmentNode.allocate_owner (n : SegmentNode) (state : MemoryState) {status : MemoryStatus}
    (size lo : ℕ) (hstatus : status ≠ .unallocated) :
    (n.allocate state status size).owner lo = [⟨lo, size, status⟩] := by
  simp [owner, allocate, hstatus]

theorem owners_allocate {c k p a size : ℕ} {t : NodePtr} {state : MemoryState}
    {status : MemoryStatus} (hstatus : status ≠ .unallocated) (hnil : owners c k p t a = []) :
    owners c k p (.node (t.force.1.allocate state status size) t.force.2.1 t.force.2.2) a =
      [⟨p, size, status⟩] := by
  cases k with
  | zero => exact SegmentNode.allocate_owner _ _ _ _ hstatus
  | succ k =>
      have hchildren := (List.append_eq_nil_iff.mp hnil).2
      have hnew := t.force.1.allocate_owner state size p hstatus
      simp only [owners, NodePtr.force_node, hnew, hchildren, List.append_nil]

/-- Allocation of a node that nobody owns makes it the owner of its addresses and of no others. -/
theorem owners_alloc {c size k p : ℕ} {state : MemoryState} {status : MemoryStatus} (hc : 0 < c)
    (hlevel : Level c size k) (hstatus : status ≠ .unallocated) {h lo : ℕ}
    (hnode : IsNode c h lo k p) (t : NodePtr)
    (hfree : ∀ a, p ≤ a → a < p + span c k → owners c h lo t a = []) {a : ℕ} (hlo : lo ≤ a)
    (hhi : a < lo + span c h) :
    owners c h lo (descend (allocTraverser state status size) c h lo () p t).2 a =
      if p ≤ a ∧ a < p + span c k then [⟨p, size, status⟩] else owners c h lo t a := by
  have hk := span_pos hc k
  refine (descend_alloc (R := fun h lo t t' =>
    (∀ a, p ≤ a → a < p + span c k → owners c h lo t a = []) → ∀ a, lo ≤ a → a < lo + span c h →
      owners c h lo t' a = if p ≤ a ∧ a < p + span c k then [⟨p, size, status⟩]
        else owners c h lo t a) hc hlevel ?here ?left ?right hnode t).2 hfree a hlo hhi
  case here =>
    intro t hfree a hlo hhi
    rw [if_pos ⟨hlo, hhi⟩]
    exact owners_allocate hstatus (hfree a hlo hhi)
  case left =>
    intro h lo t l' hn ih hfree a hlo hhi
    have hend := hn.end_le
    have hpath : ∀ b, p ≤ b → b < p + span c k →
        t.force.1.owner lo = [] ∧ owners c h lo t.force.2.1 b = [] :=
      fun b hb hb' => owners_eq_nil_left (by omega) (hfree b hb hb')
    have howner := (hpath p le_rfl (by omega)).1
    by_cases ha : a < lo + span c h
    · rw [owners_left ha, owners_left ha]
      simp only [NodePtr.force_node, SegmentNode.invalidate_owner, howner, List.nil_append]
      simpa using ih (fun b hb hb' => by simpa using (hpath b hb hb').2) a hlo ha
    · have ha' : lo + span c h ≤ a := by omega
      rw [owners_right ha', owners_right ha', if_neg (by omega)]
      simp
  case right =>
    intro h lo t r' hn ih hfree a hlo hhi
    have hbase := hn.le_base
    have hpath : ∀ b, p ≤ b → b < p + span c k →
        t.force.1.owner lo = [] ∧ owners c h (lo + span c h) t.force.2.2 b = [] :=
      fun b hb hb' => owners_eq_nil_right (by omega) (hfree b hb hb')
    have howner := (hpath p le_rfl (by omega)).1
    by_cases ha : a < lo + span c h
    · rw [owners_left ha, owners_left ha, if_neg (by omega)]
      simp
    · have ha' : lo + span c h ≤ a := by omega
      rw [span_succ] at hhi
      rw [owners_right ha', owners_right ha']
      simp only [NodePtr.force_node, SegmentNode.invalidate_owner, howner, List.nil_append]
      simpa using ih (fun b hb hb' => by simpa using (hpath b hb hb').2) a ha' (by omega)

/-! ## Release -/

/-- A release takes away the owner that starts at the address and has the status. -/
def Owner.keptBy (addr : ℕ) (st : MemoryStatus) (o : Owner) : Bool :=
  decide (¬ (o.base = addr ∧ o.status = st))

theorem owner_filter_keptBy {n : SegmentNode} {lo addr : ℕ} {st : MemoryStatus}
    (hmiss : ¬ (lo = addr ∧ n.status = st)) :
    (n.owner lo).filter (Owner.keptBy addr st) = n.owner lo := by
  rw [List.filter_eq_self]
  intro o ho
  obtain ⟨-, rfl⟩ := SegmentNode.mem_owner.mp ho
  exact decide_eq_true hmiss

theorem owners_filter_keptBy {c h lo addr a : ℕ} {t : NodePtr} {st : MemoryStatus} (hc : 0 < c)
    (haddr : ¬ (lo ≤ addr ∧ addr < lo + span c h)) :
    (owners c h lo t a).filter (Owner.keptBy addr st) = owners c h lo t a := by
  rw [List.filter_eq_self]
  intro o ho
  have hbase := base_mem_of_mem_owners hc ho
  have hne : o.base ≠ addr := fun heq => haddr (heq ▸ hbase)
  simp [Owner.keptBy, hne]

/-- A release in a tree with at most one owner over each address takes away the owner it is
asked for. -/
theorem FreeWalk.owners_eq {c h lo addr : ℕ} {st : MemoryStatus} {t t' : NodePtr}
    {result : Except Fault Unit} (hc : 0 < c) (hst : st ≠ .unallocated)
    (hw : FreeWalk c st addr h lo t result t')
    (hone : SingleOwner c h lo t) {a : ℕ} (hlo : lo ≤ a) (hhi : a < lo + span c h) :
    owners c h lo t' a = (owners c h lo t a).filter (Owner.keptBy addr st) := by
  induction hw generalizing a with
  | outside haddr => rw [owners_filter_keptBy hc haddr]
  | missing => simp
  | @hit h n l r hn =>
      -- the node goes with everything below it, which has no other owner
      have hmem : (⟨addr, n.reallyAllocated, st⟩ : Owner) ∈ owners c h addr (.node n l r) a := by
        cases h <;> simp [owners, SegmentNode.owner, hn, hst]
      obtain ⟨o, ho⟩ := List.length_eq_one_iff.mp
        (Nat.le_antisymm (hone a hlo hhi) (List.length_pos_of_mem hmem))
      rw [ho, List.mem_singleton] at hmem
      simp [ho, ← hmem, Owner.keptBy]
  | miss haddr hmiss => exact (owner_filter_keptBy hmiss).symm
  | @left h lo n l r result l' haddr hmiss _ ih =>
      rw [span_succ] at hhi
      rcases Nat.lt_or_ge a (lo + span c h) with ha | ha
      · have hbelow := ih hone.left hlo ha
        rw [owners_left ha, owners_left ha, List.filter_append]
        simp only [NodePtr.force_node, hbelow, owner_filter_keptBy hmiss]
      · rw [owners_right ha, owners_right ha, List.filter_append]
        simp only [NodePtr.force_node, owner_filter_keptBy hmiss,
          owners_filter_keptBy hc (show ¬ (lo + span c h ≤ addr ∧
            addr < lo + span c h + span c h) by omega)]
  | @right h lo n l r result r' haddr hmiss _ ih =>
      rw [span_succ] at hhi
      rcases Nat.lt_or_ge a (lo + span c h) with ha | ha
      · rw [owners_left ha, owners_left ha, List.filter_append]
        simp only [NodePtr.force_node, owner_filter_keptBy hmiss,
          owners_filter_keptBy hc (show ¬ (lo ≤ addr ∧ addr < lo + span c h) by omega)]
      · have hbelow := ih hone.right ha (by omega)
        rw [owners_right ha, owners_right ha, List.filter_append]
        simp only [NodePtr.force_node, hbelow, owner_filter_keptBy hmiss]

theorem SegmentNode.keptBy_of_miss {n : SegmentNode} {lo addr : ℕ} {st : MemoryStatus}
    (hmiss : ¬ (lo = addr ∧ n.status = st)) : ∀ o ∈ n.owner lo, o.keptBy addr st := by
  intro o ho
  obtain ⟨-, rfl⟩ := SegmentNode.mem_owner.mp ho
  exact decide_eq_true hmiss

theorem keptBy_of_outside {c h lo addr a : ℕ} {st : MemoryStatus} {t : NodePtr} (hc : 0 < c)
    (haddr : ¬ (lo ≤ addr ∧ addr < lo + span c h)) :
    ∀ o ∈ owners c h lo t a, o.keptBy addr st := by
  intro o ho
  have hbase := base_mem_of_mem_owners hc ho
  exact decide_eq_true fun heq => haddr (heq.1 ▸ hbase)

/-- A release that finds no owner to take away changes nothing. -/
theorem FreeWalk.eq_of_kept {c h lo addr : ℕ} {st : MemoryStatus} {t t' : NodePtr}
    {result : Except Fault Unit} (hc : 0 < c) (hst : st ≠ .unallocated)
    (hw : FreeWalk c st addr h lo t result t')
    (hkept : ∀ a, lo ≤ a → a < lo + span c h → ∀ o ∈ owners c h lo t a, o.keptBy addr st) :
    t' = t := by
  induction hw with
  | outside => rfl
  | missing => rfl
  | @hit h n l r hn =>
      have hpos := span_pos hc h
      have hmem : (⟨addr, n.reallyAllocated, st⟩ : Owner) ∈ owners c h addr (.node n l r) addr := by
        cases h <;> simp [owners, SegmentNode.owner, hn, hst]
      have := hkept addr le_rfl (by omega) _ hmem
      simp [Owner.keptBy] at this
  | miss => rfl
  | left haddr _ _ ih =>
      rw [span_succ] at hkept
      rw [ih fun a hlo hhi o ho => hkept a hlo (by omega) o (by
        rw [owners_left hhi]
        exact List.mem_append_right _ ho)]
  | right haddr _ _ ih =>
      rw [span_succ] at hkept
      rw [ih fun a hlo hhi o ho => hkept a (by omega) (by omega) o (by
        rw [owners_right hlo]
        exact List.mem_append_right _ ho)]

end Borealis
