import Borealis.Executor.Owners

/-!
# The check of a store

`checkAllocation` looks at an allocated node only, and only the first one on the way; a store that
is split at a midpoint above it is checked in each part on its own.  Where at most one allocated
node lies over each address, the owners decide the result (`StoreWalk.acceptedIf_owned`): every
byte has to have an owner that was asked for it, but it need not be the same one.
-/

namespace Borealis

open Lib

/-! ## One node -/

theorem owner_eq_nil {c h lo a : ℕ} {t : NodePtr} (hnil : owners c h lo t a = []) :
    t.force.1.owner lo = [] := by
  cases h with
  | zero => exact hnil
  | succ h => exact (List.append_eq_nil_iff.mp hnil).1

theorem checkAllocation_of_owner_nil {n : SegmentNode} {lo : ℕ} (hnil : n.owner lo = []) (addr : ℕ)
    (s : StoreState) : checkAllocation n lo addr s = .ok s := by
  have hstatus : n.status = .unallocated := by
    by_contra hne
    simp [SegmentNode.owner, hne] at hnil
  simp [checkAllocation, hstatus]

/-- The first allocated node on the way of a store accepts it exactly if it ends within the bytes
that were asked for. -/
theorem checkAllocation_of_owner {n : SegmentNode} {lo addr : ℕ} {s : StoreState} {o : Owner}
    (howner : n.owner lo = [o]) (hdid : s.didAlloc = false) (ho : o.base + o.amount < 2 ^ 64)
    (haddr : addr + s.data.length < 2 ^ 64) :
    checkAllocation n lo addr s =
      if addr + s.data.length ≤ o.base + o.amount then .ok { s with didAlloc := true }
      else .error (.illegalStore addr) := by
  obtain ⟨hstatus, rfl⟩ := SegmentNode.mem_owner.mp (howner ▸ List.mem_singleton_self o)
  simp only [checkAllocation, hstatus, not_false_iff, if_true, hdid, Bool.false_eq_true, if_false,
    ptrAdd_of_lt haddr, ptrAdd_of_lt ho, ne_eq, gt_iff_lt]
  split
  · next h => rw [if_neg (by omega)]
  · next h => rw [if_pos (by omega)]

/-- The bytes of a range all have an owner that was asked for them. -/
def Owned (c h lo : ℕ) (t : NodePtr) (addr size : ℕ) : Prop :=
  ∀ a, addr ≤ a → a < addr + size → ∃ o ∈ owners c h lo t a, o.Contains a

/-- What the check of a store needs of the owners: at most one over each address, with an end that
does not wrap. -/
structure Checkable (c h lo : ℕ) (t : NodePtr) : Prop where
  one : SingleOwner c h lo t
  fits : ∀ a, lo ≤ a → a < lo + span c h → ∀ o ∈ owners c h lo t a, o.base + o.amount < 2 ^ 64

/-- A range that starts in a node and does not leave it, and whose sums do not wrap. -/
structure InNode (c h lo addr size : ℕ) : Prop where
  lo_le : lo ≤ addr
  lt_hi : addr < lo + span c h
  le_hi : addr + size ≤ lo + span c h
  hi_lt : lo + span c h < 2 ^ 64

namespace InNode

variable {c h lo addr size : ℕ}

theorem mem (hr : InNode c h lo addr size) : lo ≤ addr ∧ addr < lo + span c h :=
  ⟨hr.lo_le, hr.lt_hi⟩

theorem ptrAdd_eq (hr : InNode c h lo addr size) : ptrAdd addr size = addr + size :=
  ptrAdd_of_lt (hr.le_hi.trans_lt hr.hi_lt)

theorem le_chunk (hr : InNode c 0 lo addr size) : size ≤ c := by
  have := hr.lo_le
  have := hr.le_hi
  rw [span_zero] at this
  omega

/-- The part of a range before the midpoint. -/
theorem splitLeft (hr : InNode c (h + 1) lo addr size) (hlt : addr < lo + span c h) :
    InNode c h lo addr (lo + span c h - addr) where
  lo_le := hr.lo_le
  lt_hi := hlt
  le_hi := by omega
  hi_lt := by have := hr.hi_lt; rw [span_succ] at this; omega

/-- The part of a range behind the midpoint. -/
theorem splitRight (hr : InNode c (h + 1) lo addr size) (hlt : addr < lo + span c h)
    (hgt : lo + span c h < addr + size) :
    InNode c h (lo + span c h) (lo + span c h) (size - (lo + span c h - addr)) where
  lo_le := le_rfl
  lt_hi := by have := hr.le_hi; rw [span_succ] at this; omega
  le_hi := by have := hr.le_hi; rw [span_succ] at this; omega
  hi_lt := by have := hr.hi_lt; rw [span_succ] at this; omega

theorem left (hr : InNode c (h + 1) lo addr size) (hlt : addr < lo + span c h)
    (hle : addr + size ≤ lo + span c h) : InNode c h lo addr size where
  lo_le := hr.lo_le
  lt_hi := hlt
  le_hi := hle
  hi_lt := by have := hr.hi_lt; rw [span_succ] at this; omega

theorem right (hr : InNode c (h + 1) lo addr size) (hge : lo + span c h ≤ addr) :
    InNode c h (lo + span c h) addr size where
  lo_le := hge
  lt_hi := by have := hr.lt_hi; rw [span_succ] at this; omega
  le_hi := by have := hr.le_hi; rw [span_succ] at this; omega
  hi_lt := by have := hr.hi_lt; rw [span_succ] at this; omega

end InNode

theorem owners_left_nil {c h lo : ℕ} {t : NodePtr}
    (hnone : ∀ a, lo ≤ a → a < lo + span c (h + 1) →
      owners c (h + 1) lo t a = t.force.1.owner lo) {a : ℕ} (hlo : lo ≤ a)
    (hhi : a < lo + span c h) : owners c h lo (t.force.2.1.derive t.force.1) a = [] := by
  have := hnone a hlo (by rw [span_succ]; omega)
  rw [owners_left hhi] at this
  simpa using this

theorem owners_right_nil {c h lo : ℕ} {t : NodePtr}
    (hnone : ∀ a, lo ≤ a → a < lo + span c (h + 1) →
      owners c (h + 1) lo t a = t.force.1.owner lo) {a : ℕ} (hlo : lo + span c h ≤ a)
    (hhi : a < lo + span c h + span c h) :
    owners c h (lo + span c h) (t.force.2.2.derive t.force.1) a = [] := by
  have := hnone a (by omega) (by rw [span_succ]; omega)
  rw [owners_right hlo] at this
  simpa using this

theorem length_take_split {s s' : StoreState} {mid addr : ℕ} (hdata : s'.data = s.data)
    (hgt : mid < addr + s.data.length) : (s'.data.take (mid - addr)).length = mid - addr := by
  rw [List.length_take, hdata]
  omega

/-- A store that was accepted, at the node itself or further up, succeeds if there is no allocated
node below. -/
theorem StoreWalk.ok_of_accepted {c h lo addr : ℕ} {s s₁ : StoreState} {t t' : NodePtr}
    {result : Except Fault Unit} (hw : StoreWalk c h lo addr s t result t')
    (haccept : checkAllocation t.force.1 lo addr s = .ok s₁) (hdid : s₁.didAlloc = true)
    (hnone : ∀ a, lo ≤ a → a < lo + span c h → owners c h lo t a = t.force.1.owner lo)
    (hr : InNode c h lo addr s.data.length) : result = .ok () := by
  induction hw generalizing s₁ with
  | outside haddr => exact absurd hr.mem haddr
  | reject _ hcheck => simp [haccept] at hcheck
  | tooLong _ hcheck hlen =>
      rw [checkAllocation_data hcheck] at hlen
      exact absurd hr.le_chunk hlen
  | unallocated _ hcheck _ hno =>
      obtain rfl := Except.ok.inj (haccept.symm.trans hcheck)
      simp [hdid] at hno
  | write => rfl
  | @splitFail h lo addr s s' t e left' _ hcheck hlt hgt _ ih =>
      obtain rfl := Except.ok.inj (haccept.symm.trans hcheck)
      have hdata := checkAllocation_data hcheck
      rw [hdata, hr.ptrAdd_eq] at hgt
      have hnil := fun a hlo hhi => owners_left_nil hnone (a := a) hlo hhi
      have howner := owner_eq_nil (hnil addr hr.lo_le hlt)
      refine ih (checkAllocation_of_owner_nil howner _ _) hdid
        (fun a hlo hhi => (hnil a hlo hhi).trans howner.symm) ?_
      simpa only [length_take_split hdata hgt] using hr.splitLeft hlt
  | @split h lo addr s s' t result left' right' _ hcheck hlt hgt _ _ _ ih =>
      obtain rfl := Except.ok.inj (haccept.symm.trans hcheck)
      have hdata := checkAllocation_data hcheck
      rw [hdata, hr.ptrAdd_eq] at hgt
      have hright := hr.splitRight hlt hgt
      have hnil := fun a hlo hhi => owners_right_nil hnone (a := a) hlo hhi
      have howner := owner_eq_nil (hnil _ le_rfl hright.mem.2)
      refine ih (checkAllocation_of_owner_nil howner _ _) hdid
        (fun a hlo hhi => (hnil a hlo hhi).trans howner.symm) ?_
      simpa only [List.length_drop, hdata] using hright
  | @left h lo addr s s' t result left' haddr hcheck hgt _ ih =>
      obtain rfl := Except.ok.inj (haccept.symm.trans hcheck)
      have hdata := checkAllocation_data hcheck
      rw [hdata, hr.ptrAdd_eq] at hgt
      have hnil := fun a hlo hhi => owners_left_nil hnone (a := a) hlo hhi
      have howner := owner_eq_nil (hnil addr hr.lo_le haddr.2)
      exact ih (checkAllocation_of_owner_nil howner _ _) hdid
        (fun a hlo hhi => (hnil a hlo hhi).trans howner.symm)
        (hdata ▸ hr.left haddr.2 (Nat.le_of_not_lt hgt))
  | @right h lo addr s s' t result right' haddr hcheck _ ih =>
      obtain rfl := Except.ok.inj (haccept.symm.trans hcheck)
      have hdata := checkAllocation_data hcheck
      have hnil := fun a hlo hhi => owners_right_nil hnone (a := a) hlo hhi
      have howner := owner_eq_nil (hnil addr haddr.1 haddr.2)
      exact ih (checkAllocation_of_owner_nil howner _ _) hdid
        (fun a hlo hhi => (hnil a hlo hhi).trans howner.symm) (hdata ▸ hr.right haddr.1)

/-- A store is accepted exactly if `P` holds, and is illegal otherwise. -/
structure AcceptedIf (P : Prop) (result : Except Fault Unit) : Prop where
  ok_iff : result = .ok () ↔ P
  illegal : ¬ P → ∃ addr, result = .error (.illegalStore addr)

theorem AcceptedIf.ok {P : Prop} (hP : P) : AcceptedIf P (.ok ()) :=
  ⟨iff_of_true rfl hP, fun h => absurd hP h⟩

theorem AcceptedIf.error {P : Prop} (hP : ¬ P) (addr : ℕ) :
    AcceptedIf P (.error (.illegalStore addr)) :=
  ⟨iff_of_false (by simp) hP, fun _ => ⟨addr, rfl⟩⟩

theorem AcceptedIf.congr {P Q : Prop} {result : Except Fault Unit} (h : AcceptedIf P result)
    (hPQ : P ↔ Q) : AcceptedIf Q result :=
  ⟨h.ok_iff.trans hPQ, fun hQ => h.illegal (mt hPQ.mp hQ)⟩

theorem AcceptedIf.and_error {P : Prop} {e : Fault} (h : AcceptedIf P (.error e)) (Q : Prop) :
    AcceptedIf (P ∧ Q) (.error e) := by
  have hP : ¬ P := fun hP => nomatch h.ok_iff.mpr hP
  obtain ⟨addr, rfl⟩ : ∃ addr, e = .illegalStore addr := by simpa using h.illegal hP
  exact .error (fun hPQ => hP hPQ.1) addr

theorem AcceptedIf.and_ok {P Q : Prop} {result : Except Fault Unit} (h : AcceptedIf P (.ok ()))
    (h' : AcceptedIf Q result) : AcceptedIf (P ∧ Q) result :=
  h'.congr (and_iff_right (h.ok_iff.mp rfl)).symm

/-- The check at an allocated node compares the range with what the owner asked for. -/
theorem Checkable.check_owner {c h lo addr : ℕ} {s : StoreState} {t : NodePtr} {o : Owner}
    (hcheckable : Checkable c h lo t) (hdid : s.didAlloc = false)
    (howner : t.force.1.owner lo = [o]) (hr : InNode c h lo addr s.data.length) :
    (∀ a, lo ≤ a → a < lo + span c h → owners c h lo t a = [o]) ∧
      checkAllocation t.force.1 lo addr s =
        if addr + s.data.length ≤ o.base + o.amount then .ok { s with didAlloc := true }
        else .error (.illegalStore addr) := by
  have hstatus := (SegmentNode.mem_owner.mp (howner ▸ List.mem_singleton_self o)).1
  have hone : ∀ a, lo ≤ a → a < lo + span c h → owners c h lo t a = [o] := fun a hlo hhi =>
    (hcheckable.one.owners_eq hstatus hlo hhi).trans howner
  have hend : addr + s.data.length < 2 ^ 64 := hr.le_hi.trans_lt hr.hi_lt
  have ho := hcheckable.fits addr hr.lo_le hr.lt_hi o (by simp [hone addr hr.lo_le hr.lt_hi])
  exact ⟨hone, checkAllocation_of_owner howner hdid ho hend⟩

/-- A store that meets an allocated node returns if its range was asked for. -/
theorem StoreWalk.ok_of_owner {c h lo addr : ℕ} {s : StoreState} {t t' : NodePtr}
    {result : Except Fault Unit} {o : Owner} (hw : StoreWalk c h lo addr s t result t')
    (hdid : s.didAlloc = false) (howner : t.force.1.owner lo = [o])
    (hcheckable : Checkable c h lo t) (hr : InNode c h lo addr s.data.length)
    (hfits : addr + s.data.length ≤ o.base + o.amount) : result = .ok () := by
  obtain ⟨hone, hcheck⟩ := hcheckable.check_owner hdid howner hr
  rw [if_pos hfits] at hcheck
  exact hw.ok_of_accepted hcheck rfl (fun a hlo hhi => (hone a hlo hhi).trans howner.symm) hr

/-- A store that meets an allocated node is accepted exactly if its range was asked for. -/
theorem StoreWalk.accepted_of_owner {c h lo addr : ℕ} {s : StoreState} {t t' : NodePtr}
    {result : Except Fault Unit} {o : Owner} (hw : StoreWalk c h lo addr s t result t')
    (hdid : s.didAlloc = false) (howner : t.force.1.owner lo = [o])
    (hcheckable : Checkable c h lo t) (hpos : 0 < s.data.length)
    (hr : InNode c h lo addr s.data.length) :
    AcceptedIf (Owned c h lo t addr s.data.length) result := by
  obtain ⟨hone, hcheck⟩ := hcheckable.check_owner hdid howner hr
  have hmem := hr.mem
  have hbase := hr.lo_le
  have hlo : o.base = lo := by
    obtain ⟨-, rfl⟩ := SegmentNode.mem_owner.mp (howner ▸ List.mem_singleton_self o)
    rfl
  by_cases hfits : addr + s.data.length ≤ o.base + o.amount
  · obtain rfl := hw.ok_of_owner hdid howner hcheckable hr hfits
    refine .ok fun a ha ha' => ⟨o, ?_, ?_⟩
    · simp [hone a (by omega) (by have := hr.le_hi; omega)]
    · exact ⟨by omega, by omega⟩
  · rw [if_neg hfits] at hcheck
    obtain rfl : result = .error (.illegalStore addr) := by
      cases hw with
      | outside haddr => exact absurd hmem haddr
      | reject _ hcheck' => exact Except.error.inj (hcheck'.symm.trans hcheck) ▸ rfl
      | _ => simp_all
    refine .error (fun hall => hfits ?_) addr
    -- the last byte of the range is behind the bytes that were asked for
    obtain ⟨o', ho', hcontains⟩ := hall (addr + s.data.length - 1) (by omega) (by omega)
    have hlast := hone (addr + s.data.length - 1) (by omega) (by have := hr.le_hi; omega)
    rw [hlast, List.mem_singleton] at ho'
    obtain rfl := ho'
    have := hcontains.2
    omega

theorem SegmentNode.owner_cases (n : SegmentNode) (lo : ℕ) :
    n.owner lo = [] ∨ ∃ o, n.owner lo = [o] := by
  unfold owner
  split
  · exact Or.inl rfl
  · exact Or.inr ⟨_, rfl⟩

theorem Checkable.left {c h lo : ℕ} {t : NodePtr} (hcheckable : Checkable c (h + 1) lo t) :
    Checkable c h lo (t.force.2.1.derive t.force.1) where
  one a hlo hhi := by
    rw [owners_derive]
    exact hcheckable.one.left a hlo hhi
  fits a hlo hhi o ho := by
    refine hcheckable.fits a hlo (by rw [span_succ]; omega) o ?_
    rw [owners_left hhi]
    exact List.mem_append_right _ (owners_derive ▸ ho)

theorem Checkable.right {c h lo : ℕ} {t : NodePtr} (hcheckable : Checkable c (h + 1) lo t) :
    Checkable c h (lo + span c h) (t.force.2.2.derive t.force.1) where
  one a hlo hhi := by
    rw [owners_derive]
    exact hcheckable.one.right a hlo hhi
  fits a hlo hhi o ho := by
    refine hcheckable.fits a (by omega) (by rw [span_succ]; omega) o ?_
    rw [owners_right hlo]
    exact List.mem_append_right _ (owners_derive ▸ ho)

/-- Where the node itself is not allocated, the owners are those of its children. -/
theorem owned_left {c h lo addr size : ℕ} {t : NodePtr} (hnil : t.force.1.owner lo = [])
    (hle : addr + size ≤ lo + span c h) :
    Owned c h lo (t.force.2.1.derive t.force.1) addr size ↔ Owned c (h + 1) lo t addr size := by
  refine forall_congr' fun a => imp_congr_right fun ha => imp_congr_right fun ha' => ?_
  rw [owners_left (show a < lo + span c h by omega), hnil, owners_derive, List.nil_append]

theorem owned_right {c h lo addr size : ℕ} {t : NodePtr} (hnil : t.force.1.owner lo = [])
    (hge : lo + span c h ≤ addr) :
    Owned c h (lo + span c h) (t.force.2.2.derive t.force.1) addr size ↔
      Owned c (h + 1) lo t addr size := by
  refine forall_congr' fun a => imp_congr_right fun ha => imp_congr_right fun ha' => ?_
  rw [owners_right (show lo + span c h ≤ a by omega), hnil, owners_derive, List.nil_append]

theorem owned_split {c h lo mid addr size : ℕ} {t : NodePtr} (hlt : addr < mid)
    (hgt : mid < addr + size) :
    Owned c h lo t addr size ↔
      Owned c h lo t addr (mid - addr) ∧ Owned c h lo t mid (size - (mid - addr)) := by
  refine ⟨fun hall => ⟨fun a ha ha' => hall a ha (by omega),
    fun a ha ha' => hall a (by omega) (by omega)⟩, fun hall a ha ha' => ?_⟩
  rcases Nat.lt_or_ge a mid with hmid | hmid
  · exact hall.1 a ha (by omega)
  · exact hall.2 a hmid (by omega)

theorem owned_children {c h lo addr size : ℕ} {t : NodePtr} (hnil : t.force.1.owner lo = [])
    (hlt : addr < lo + span c h) (hgt : lo + span c h < addr + size) :
    Owned c h lo (t.force.2.1.derive t.force.1) addr (lo + span c h - addr) ∧
        Owned c h (lo + span c h) (t.force.2.2.derive t.force.1) (lo + span c h)
          (size - (lo + span c h - addr)) ↔ Owned c (h + 1) lo t addr size := by
  rw [owned_left hnil (by omega), owned_right hnil le_rfl, ← owned_split hlt hgt]

/-- **The check of a store, as it is made.**  Where at most one allocated node lies over each
address, a store is accepted exactly if each of its bytes was asked for by the owner of that byte;
the bytes may have different owners. -/
theorem StoreWalk.acceptedIf_owned {c h lo addr : ℕ} {s : StoreState} {t t' : NodePtr}
    {result : Except Fault Unit} (hw : StoreWalk c h lo addr s t result t')
    (hdid : s.didAlloc = false) (hcheckable : Checkable c h lo t) (hpos : 0 < s.data.length)
    (hr : InNode c h lo addr s.data.length) :
    AcceptedIf (Owned c h lo t addr s.data.length) result := by
  induction hw with
  | outside haddr => exact absurd hr.mem haddr
  | @reject h lo addr s t e haddr hcheck =>
      rcases t.force.1.owner_cases lo with hnil | ⟨o, ho⟩
      · rw [checkAllocation_of_owner_nil hnil] at hcheck
        cases hcheck
      · exact (StoreWalk.reject haddr hcheck).accepted_of_owner hdid ho hcheckable hpos hr
  | tooLong _ hcheck hlen =>
      rw [checkAllocation_data hcheck] at hlen
      exact absurd hr.le_chunk hlen
  | @unallocated lo addr s s' t haddr hcheck hlen hno =>
      rcases t.force.1.owner_cases lo with hnil | ⟨o, ho⟩
      · refine .error (fun hall => ?_) addr
        obtain ⟨o, ho, -⟩ := hall addr le_rfl (by omega)
        simp [owners, hnil] at ho
      · exact (StoreWalk.unallocated haddr hcheck hlen hno).accepted_of_owner hdid ho hcheckable
          hpos hr
  | @write lo addr s s' t haddr hcheck hlen hyes =>
      rcases t.force.1.owner_cases lo with hnil | ⟨o, ho⟩
      · rw [checkAllocation_of_owner_nil hnil] at hcheck
        obtain rfl := Except.ok.inj hcheck
        simp [hdid] at hyes
      · exact (StoreWalk.write haddr hcheck hlen hyes).accepted_of_owner hdid ho hcheckable hpos hr
  | @splitFail h lo addr s s' t e left' haddr hcheck hlt hgt hleft ih =>
      rcases t.force.1.owner_cases lo with hnil | ⟨o, ho⟩
      · rw [checkAllocation_of_owner_nil hnil] at hcheck
        obtain rfl := Except.ok.inj hcheck
        rw [hr.ptrAdd_eq] at hgt
        have hlen := length_take_split rfl hgt
        have hl := ih hdid hcheckable.left (by simpa only [hlen] using Nat.sub_pos_of_lt hlt)
          (by simpa only [hlen] using hr.splitLeft hlt)
        simp only [hlen] at hl
        exact (hl.and_error _).congr (owned_children hnil hlt hgt)
      · exact (StoreWalk.splitFail haddr hcheck hlt hgt hleft).accepted_of_owner hdid ho
          hcheckable hpos hr
  | @split h lo addr s s' t result left' right' haddr hcheck hlt hgt hleft hright ih ih' =>
      rcases t.force.1.owner_cases lo with hnil | ⟨o, ho⟩
      · rw [checkAllocation_of_owner_nil hnil] at hcheck
        obtain rfl := Except.ok.inj hcheck
        rw [hr.ptrAdd_eq] at hgt
        have hlen := length_take_split rfl hgt
        have hl := ih hdid hcheckable.left (by simpa only [hlen] using Nat.sub_pos_of_lt hlt)
          (by simpa only [hlen] using hr.splitLeft hlt)
        have hr' := ih' hdid hcheckable.right (by simp only [List.length_drop]; omega)
          (by simpa only [List.length_drop] using hr.splitRight hlt hgt)
        simp only [hlen] at hl
        simp only [List.length_drop] at hr'
        exact (hl.and_ok hr').congr (owned_children hnil hlt hgt)
      · exact (StoreWalk.split haddr hcheck hlt hgt hleft hright).accepted_of_owner hdid ho
          hcheckable hpos hr
  | @left h lo addr s s' t result left' haddr hcheck hgt hleft ih =>
      rcases t.force.1.owner_cases lo with hnil | ⟨o, ho⟩
      · rw [checkAllocation_of_owner_nil hnil] at hcheck
        obtain rfl := Except.ok.inj hcheck
        rw [hr.ptrAdd_eq] at hgt
        have hle := Nat.le_of_not_lt hgt
        exact (ih hdid hcheckable.left hpos (hr.left haddr.2 hle)).congr (owned_left hnil hle)
      · exact (StoreWalk.left haddr hcheck hgt hleft).accepted_of_owner hdid ho hcheckable hpos hr
  | @right h lo addr s s' t result right' haddr hcheck hright ih =>
      rcases t.force.1.owner_cases lo with hnil | ⟨o, ho⟩
      · rw [checkAllocation_of_owner_nil hnil] at hcheck
        obtain rfl := Except.ok.inj hcheck
        exact (ih hdid hcheckable.right hpos (hr.right haddr.1)).congr (owned_right hnil haddr.1)
      · exact (StoreWalk.right haddr hcheck hright).accepted_of_owner hdid ho hcheckable hpos hr

theorem StoreWalk.ok_of_empty_owner {c h lo addr : ℕ} {s : StoreState} {t t' : NodePtr}
    {result : Except Fault Unit} {o : Owner} (hw : StoreWalk c h lo addr s t result t')
    (hdid : s.didAlloc = false) (howner : t.force.1.owner lo = [o])
    (hcheckable : Checkable c h lo t) (hempty : s.data.length = 0)
    (hr : InNode c h lo addr s.data.length) (howned : Owned c h lo t addr 1) : result = .ok () := by
  obtain ⟨hone, -⟩ := hcheckable.check_owner hdid howner hr
  obtain ⟨o', ho', hcontains⟩ := howned addr le_rfl (Nat.lt_succ_self addr)
  rw [hone addr hr.lo_le hr.lt_hi, List.mem_singleton] at ho'
  subst ho'
  apply hw.ok_of_owner hdid howner hcheckable hr
  rw [hempty]
  exact hcontains.2.le

/-- A store of no bytes, at a byte that was asked for, returns. -/
theorem StoreWalk.ok_of_empty {c h lo addr : ℕ} {s : StoreState} {t t' : NodePtr}
    {result : Except Fault Unit} (hw : StoreWalk c h lo addr s t result t')
    (hdid : s.didAlloc = false) (hcheckable : Checkable c h lo t) (hempty : s.data.length = 0)
    (hr : InNode c h lo addr s.data.length) (howned : Owned c h lo t addr 1) : result = .ok () := by
  induction hw with
  | outside haddr => exact absurd hr.mem haddr
  | @reject h lo addr s t e haddr hcheck =>
      rcases t.force.1.owner_cases lo with hnil | ⟨o, ho⟩
      · rw [checkAllocation_of_owner_nil hnil] at hcheck
        cases hcheck
      · exact (StoreWalk.reject haddr hcheck).ok_of_empty_owner hdid ho hcheckable hempty hr howned
  | tooLong _ hcheck hlen =>
      rw [checkAllocation_data hcheck] at hlen
      exact absurd hr.le_chunk hlen
  | @unallocated lo addr s s' t haddr hcheck hlen hno =>
      rcases t.force.1.owner_cases lo with hnil | ⟨o, ho⟩
      · obtain ⟨o, ho, -⟩ := howned _ le_rfl (Nat.lt_succ_self _)
        simp [owners, hnil] at ho
      · exact (StoreWalk.unallocated haddr hcheck hlen hno).ok_of_empty_owner hdid ho hcheckable
          hempty hr howned
  | write => rfl
  | splitFail haddr hcheck hlt hgt =>
      rw [checkAllocation_data hcheck, hr.ptrAdd_eq] at hgt
      omega
  | split haddr hcheck hlt hgt =>
      rw [checkAllocation_data hcheck, hr.ptrAdd_eq] at hgt
      omega
  | @left h lo addr s s' t result left' haddr hcheck hgt hleft ih =>
      rcases t.force.1.owner_cases lo with hnil | ⟨o, ho⟩
      · rw [checkAllocation_of_owner_nil hnil] at hcheck
        obtain rfl := Except.ok.inj hcheck
        refine ih hdid hcheckable.left hempty (hr.left haddr.2 ?_) ((owned_left hnil ?_).mpr howned)
        · rw [hempty]
          exact haddr.2.le
        · exact haddr.2
      · exact (StoreWalk.left haddr hcheck hgt hleft).ok_of_empty_owner hdid ho hcheckable hempty
          hr howned
  | @right h lo addr s s' t result right' haddr hcheck hright ih =>
      rcases t.force.1.owner_cases lo with hnil | ⟨o, ho⟩
      · rw [checkAllocation_of_owner_nil hnil] at hcheck
        obtain rfl := Except.ok.inj hcheck
        exact ih hdid hcheckable.right hempty (hr.right haddr.1)
          ((owned_right hnil haddr.1).mpr howned)
      · exact (StoreWalk.right haddr hcheck hright).ok_of_empty_owner hdid ho hcheckable hempty hr
          howned

/-! ## The range of an accepted store -/

/-- An accepted store starts in the node. -/
theorem StoreWalk.mem_of_ok {c h lo addr : ℕ} {s : StoreState} {t t' : NodePtr}
    {result : Except Fault Unit} (hw : StoreWalk c h lo addr s t result t')
    (hok : result = .ok ()) : lo ≤ addr ∧ addr < lo + span c h := by
  cases hw with
  | outside => cases hok
  | reject => cases hok
  | tooLong => cases hok
  | unallocated => cases hok
  | write haddr => rwa [span_zero]
  | splitFail => cases hok
  | split haddr => exact haddr
  | left haddr =>
      rw [span_succ]
      omega
  | right haddr =>
      rw [span_succ]
      omega

/-- The data of an accepted store ends at most a chunk behind the node. -/
theorem StoreWalk.lt_of_ok {c h lo addr : ℕ} {s : StoreState} {t t' : NodePtr}
    {result : Except Fault Unit} (hw : StoreWalk c h lo addr s t result t')
    (hok : result = .ok ()) : addr + s.data.length < lo + span c h + c := by
  induction hw with
  | outside => cases hok
  | reject => cases hok
  | tooLong => cases hok
  | unallocated => cases hok
  | write haddr hcheck hlen =>
      rw [checkAllocation_data hcheck] at hlen
      rw [span_zero]
      omega
  | splitFail => cases hok
  | split _ hcheck _ _ _ _ _ ih =>
      have hbound := ih hok
      rw [List.length_drop, checkAllocation_data hcheck] at hbound
      rw [span_succ]
      omega
  | left _ hcheck _ _ ih =>
      have hbound := ih hok
      rw [checkAllocation_data hcheck] at hbound
      rw [span_succ]
      omega
  | right _ hcheck _ ih =>
      have hbound := ih hok
      rw [checkAllocation_data hcheck] at hbound
      rw [span_succ]
      omega

/-- A store that passed the check of a node, or one further up, ends at most at `M`, if the bytes
that were asked for do. -/
theorem le_of_checkAllocation {n : SegmentNode} {lo addr M : ℕ} {s s' : StoreState}
    (hcheck : checkAllocation n lo addr s = .ok s') (hwrap : addr + s.data.length < 2 ^ 64)
    (hM : M < 2 ^ 64) (hfits : ∀ o ∈ n.owner lo, o.base + o.amount ≤ M)
    (hbefore : s.didAlloc = true → addr + s.data.length ≤ M) (hdid : s'.didAlloc = true) :
    addr + s.data.length ≤ M := by
  rcases n.owner_cases lo with hnil | ⟨o, ho⟩
  · rw [checkAllocation_of_owner_nil hnil] at hcheck
    obtain rfl := Except.ok.inj hcheck
    exact hbefore hdid
  · have hend := hfits o (by simp [ho])
    cases hs : s.didAlloc with
    | true => exact hbefore hs
    | false =>
        rw [checkAllocation_of_owner ho hs (by omega) hwrap] at hcheck
        split at hcheck
        · omega
        · cases hcheck

/-- An accepted store ends at most at `M`, if the bytes that were asked for do. -/
theorem StoreWalk.le_of_ok {c h lo addr M : ℕ} {s : StoreState} {t t' : NodePtr}
    {result : Except Fault Unit} (hw : StoreWalk c h lo addr s t result t')
    (hok : result = .ok ()) (hwrap : addr + s.data.length < 2 ^ 64) (hM : M < 2 ^ 64)
    (hfits : ∀ a, lo ≤ a → a < lo + span c h → ∀ o ∈ owners c h lo t a, o.base + o.amount ≤ M)
    (hbefore : s.didAlloc = true → addr + s.data.length ≤ M) : addr + s.data.length ≤ M := by
  induction hw with
  | outside => cases hok
  | reject => cases hok
  | tooLong => cases hok
  | unallocated => cases hok
  | @write lo addr s s' t haddr hcheck _ hdid =>
      rw [span_zero] at hfits
      exact le_of_checkAllocation hcheck hwrap hM (hfits addr haddr.1 haddr.2) hbefore hdid
  | splitFail => cases hok
  | @split h lo addr s s' t result left' right' haddr hcheck hlt hgt _ _ _ ih =>
      have hdata := checkAllocation_data hcheck
      rw [hdata, ptrAdd_of_lt hwrap] at hgt
      rw [span_succ] at haddr hfits
      have hhere : s'.didAlloc = true → addr + s.data.length ≤ M :=
        le_of_checkAllocation hcheck hwrap hM (fun o ho => hfits addr haddr.1 (by omega) o
          (List.mem_append_left _ ho)) hbefore
      have hbound := ih hok (by rw [List.length_drop, hdata]; omega)
        (fun a hlo hhi o ho => hfits a (by omega) (by omega) o (by
          rw [owners_right hlo]
          exact List.mem_append_right _ (owners_derive ▸ ho)))
        (fun hdid => by have := hhere hdid; rw [List.length_drop, hdata]; omega)
      rw [List.length_drop, hdata] at hbound
      omega
  | @left h lo addr s s' t result left' haddr hcheck _ _ ih =>
      have hdata := checkAllocation_data hcheck
      rw [span_succ] at hfits
      have hhere := le_of_checkAllocation hcheck hwrap hM (fun o ho => hfits addr haddr.1 (by omega)
        o (List.mem_append_left _ ho)) hbefore
      rw [← hdata] at hwrap hhere ⊢
      exact ih hok hwrap (fun a hlo hhi o ho => hfits a hlo (by omega) o (by
        rw [owners_left hhi]
        exact List.mem_append_right _ (owners_derive ▸ ho))) hhere
  | @right h lo addr s s' t result right' haddr hcheck _ ih =>
      have hdata := checkAllocation_data hcheck
      rw [span_succ] at hfits
      have hhere := le_of_checkAllocation hcheck hwrap hM (fun o ho => hfits addr (by omega)
        (by omega) o (List.mem_append_left _ ho)) hbefore
      rw [← hdata] at hwrap hhere ⊢
      exact ih hok hwrap (fun a hlo hhi o ho => hfits a (by omega) (by omega) o (by
        rw [owners_right hlo]
        exact List.mem_append_right _ (owners_derive ▸ ho))) hhere

end Borealis
