import Borealis.SMT.Run
import Mathlib.Algebra.Order.Ring.Nat

/-!
# The pointers that are handed out

`getGlobalPtr` and `getLocalPtr` hand out the value of a counter and move the counter on by twice
the size that was asked for; a merge takes the greatest counters of the branches.  The pointers
handed out along one path through the branches are apart as long as every request is for something,
every merge has a branch, and the counters stay inside their regions and in the range of an `int`.

## Strategy

`Covered` says where the pointers of a path lie: between the counters before and after, and one
after the other.  One operation gives such a cover (`covered_op`), covers of consecutive runs
compose (`Covered.append`), and a merge only widens one (`Covered.mono`).  The merge of no branches
sets the counters back to the null pointer and the first address.
-/

namespace Borealis

namespace SMT

variable {V : Type} (unknown : Bool)

/-! ## What is handed out along a path -/

/-- A pointer that was handed out, with the size that was asked for. -/
structure Allocation where
  base : Pointer
  offsetSize : BitVec 64
  isGlobal : Bool
deriving DecidableEq

namespace Allocation

/-- The first address past the allocation, when there is one. -/
def stop (a : Allocation) : ℕ := a.base.toNat + 2 * a.offsetSize.toNat

/-- The addresses of `[p, p + 2 * offsetSize)`, as 64-bit numbers. -/
def Covers (a : Allocation) (p : Pointer) : Prop :=
  ∃ k < 2 * a.offsetSize.toNat, p = a.base + BitVec.ofNat 64 k

/-- No address belongs to both. -/
def Disjoint (a b : Allocation) : Prop :=
  ∀ p, ¬ (a.Covers p ∧ b.Covers p)

end Allocation

mutual
/-- What an operation hands out, for every path through its branches. -/
def Op.allocations : Op V → ExecutionContext V → ℕ → List (List Allocation)
  | .getGlobalPtr _ offsetSize _, ctx, _ => [[⟨getPtrConst ctx.globalPtr, offsetSize, true⟩]]
  | .getLocalPtr _ offsetSize _, ctx, _ => [[⟨getPtrConst ctx.localPtr, offsetSize, false⟩]]
  | .switchOn branches, ctx, n =>
    if branches.isEmpty then [[]] else branchAllocations branches ctx n
  | .externalSwitchOn branches _, ctx, n =>
    if branches.isEmpty then [[]] else branchAllocations branches ctx n
  | _, _, _ => [[]]

/-- What a run hands out, for every path. -/
def allocations : List (Op V) → ExecutionContext V → ℕ → List (List Allocation)
  | [], _, _ => [[]]
  | op :: ops, ctx, n =>
    (op.allocations ctx n).flatMap fun first =>
      (allocations ops (op.run unknown ctx n).1 (op.run unknown ctx n).2).map (first ++ ·)

/-- What the branches of a choice hand out, for every path through one of them. -/
def branchAllocations : List ((Assignment V → Bool) × List (Op V)) → ExecutionContext V → ℕ →
    List (List Allocation)
  | [], _, _ => []
  | (_, ops) :: branches, ctx, n =>
    allocations ops ctx n ++ branchAllocations branches ctx (runAll unknown ops ctx n).2
end

/-- The pointers of a path are what the solver takes them for: none is null, no two are equal, no
two ranges meet, and each lies in its region. -/
structure Separate (localMemoryStart localMemoryEnd : BitVec 64) (path : List Allocation) :
    Prop where
  nonNull : ∀ a ∈ path, a.base ≠ getNullPtr
  distinct : (path.map Allocation.base).Nodup
  disjoint : path.Pairwise Allocation.Disjoint
  globals : ∀ a ∈ path, a.isGlobal = true → a.base < localMemoryStart
  locals : ∀ a ∈ path, a.isGlobal = false → localMemoryStart ≤ a.base ∧ a.base < localMemoryEnd

/-! ## The condition -/

mutual
/-- Requests are for something and stay in their region and in the range of an `int`; merges have a
branch. -/
def Op.InRegion : Op V → ExecutionContext V → ℕ → Prop
  | .getGlobalPtr _ offsetSize _, ctx, _ =>
    0 < offsetSize ∧ ctx.globalPtr.toNat + 2 * offsetSize.toNat ≤ ctx.localMemoryStart.toNat ∧
      ctx.globalPtr.toNat < 2 ^ 31
  | .getLocalPtr _ offsetSize _, ctx, _ =>
    0 < offsetSize ∧ ctx.localPtr.toNat + 2 * offsetSize.toNat ≤ ctx.localMemoryEnd.toNat ∧
      ctx.localPtr.toNat < 2 ^ 31
  | .switchOn branches, ctx, n => branches ≠ [] ∧ branchesInRegion branches ctx n
  | .externalSwitchOn branches _, ctx, n => branches ≠ [] ∧ branchesInRegion branches ctx n
  | _, _, _ => True

/-- Every operation of a run meets the condition in the context it is performed in. -/
def InRegion : List (Op V) → ExecutionContext V → ℕ → Prop
  | [], _, _ => True
  | op :: ops, ctx, n =>
    op.InRegion ctx n ∧ InRegion ops (op.run unknown ctx n).1 (op.run unknown ctx n).2

/-- The runs of the branches meet the condition. -/
def branchesInRegion : List ((Assignment V → Bool) × List (Op V)) → ExecutionContext V → ℕ → Prop
  | [], _, _ => True
  | (_, ops) :: branches, ctx, n =>
    InRegion ops ctx n ∧ branchesInRegion branches ctx (runAll unknown ops ctx n).2
end

/-! ## Counters -/

/-- The region is the same and the counters have not decreased. -/
structure Advances (ctx ctx' : ExecutionContext V) : Prop where
  globalPtr : ctx.globalPtr.toNat ≤ ctx'.globalPtr.toNat
  localPtr : ctx.localPtr.toNat ≤ ctx'.localPtr.toNat
  localMemoryStart : ctx'.localMemoryStart = ctx.localMemoryStart
  localMemoryEnd : ctx'.localMemoryEnd = ctx.localMemoryEnd

namespace Advances

theorem refl (ctx : ExecutionContext V) : Advances ctx ctx :=
  ⟨Nat.le_refl _, Nat.le_refl _, rfl, rfl⟩

theorem trans {ctx ctx' ctx'' : ExecutionContext V} (h : Advances ctx ctx')
    (h' : Advances ctx' ctx'') : Advances ctx ctx'' :=
  ⟨h.globalPtr.trans h'.globalPtr, h.localPtr.trans h'.localPtr,
    h'.localMemoryStart.trans h.localMemoryStart, h'.localMemoryEnd.trans h.localMemoryEnd⟩

end Advances

namespace ExecutionContext

/-- Neither the counters nor the region differ. -/
def SameCounters (ctx ctx' : ExecutionContext V) : Prop :=
  ctx'.globalPtr = ctx.globalPtr ∧ ctx'.localPtr = ctx.localPtr ∧
    ctx'.localMemoryStart = ctx.localMemoryStart ∧ ctx'.localMemoryEnd = ctx.localMemoryEnd

theorem SameCounters.advances {ctx ctx' : ExecutionContext V} (h : SameCounters ctx ctx') :
    Advances ctx ctx' := by
  obtain ⟨hglobal, hlocal, hstart, hend⟩ := h
  exact ⟨Nat.le_of_eq (by rw [hglobal]), Nat.le_of_eq (by rw [hlocal]), hstart, hend⟩

theorem sameCounters_touch (ctx : ExecutionContext V) (n : ℕ) (id : String) :
    SameCounters ctx (ctx.touch unknown n id) := by
  unfold touch
  split <;> exact ⟨rfl, rfl, rfl, rfl⟩

theorem sameCounters_gepBounds (ctx : ExecutionContext V) (n memspace : ℕ) :
    SameCounters ctx (ctx.gepBounds n memspace).2 := by
  unfold gepBounds
  split <;> exact ⟨rfl, rfl, rfl, rfl⟩

theorem sameCounters_writeBound (ctx : ExecutionContext V) (n : ℕ) (p : Assignment V → Pointer)
    (bound : AnyBitVector V) (memspace : ℕ) :
    SameCounters ctx (ctx.writeBound n p bound memspace) :=
  sameCounters_gepBounds ctx n memspace

theorem sameCounters_writeProperty (ctx : ExecutionContext V) (n : ℕ) (id : String)
    (ix : Assignment V → Pointer) (val : AnyBitVector V) :
    SameCounters ctx (ctx.writeProperty unknown n id ix val) :=
  sameCounters_touch unknown ctx n id

theorem sameCounters_writeExprRangeToMemory (ctx : ExecutionContext V) (n : ℕ)
    (start : ValueExpr V Pointer) (size : BitVec 64) (val : ValueExpr V Byte) (memspace : ℕ) :
    SameCounters ctx (ctx.writeExprRangeToMemory unknown n start size val memspace) :=
  sameCounters_touch unknown ctx n _

theorem getGlobalPtr_counters (ctx : ExecutionContext V) (n memspace : ℕ) (offsetSize : BitVec 64)
    (origSize : AnyBitVector V) :
    SameCounters { ctx with globalPtr := ctx.globalPtr + 2 * offsetSize }
      (ctx.getGlobalPtr n memspace offsetSize origSize) :=
  sameCounters_writeBound _ n _ origSize memspace

theorem getLocalPtr_counters (ctx : ExecutionContext V) (n memspace : ℕ) (offsetSize : BitVec 64)
    (origSize : AnyBitVector V) :
    SameCounters { ctx with localPtr := ctx.localPtr + 2 * offsetSize }
      (ctx.getLocalPtr n memspace offsetSize origSize) :=
  sameCounters_writeBound _ n _ origSize memspace

end ExecutionContext

theorem le_maxCounter_left (a b : BitVec 64) : a.toNat ≤ (ExecutionContext.maxCounter a b).toNat := by
  unfold ExecutionContext.maxCounter
  split
  · next h => exact Nat.le_of_lt (BitVec.lt_def.mp h)
  · exact Nat.le_refl _

theorem le_maxCounter_right (a b : BitVec 64) :
    b.toNat ≤ (ExecutionContext.maxCounter a b).toNat := by
  unfold ExecutionContext.maxCounter
  split
  · exact Nat.le_refl _
  · next h => exact Nat.le_of_not_lt fun hlt => h (BitVec.lt_def.mpr hlt)

/-- The greatest counter is at least the initial one and at least each of the others. -/
theorem le_foldl_maxCounter {α : Type} (f : α → BitVec 64) (xs : List α) (init : BitVec 64) :
    init.toNat ≤ (xs.foldl (fun p x => ExecutionContext.maxCounter p (f x)) init).toNat ∧
      ∀ x ∈ xs, (f x).toNat ≤
        (xs.foldl (fun p x => ExecutionContext.maxCounter p (f x)) init).toNat := by
  induction xs generalizing init with
  | nil => exact ⟨Nat.le_refl _, nofun⟩
  | cons x xs ih =>
      obtain ⟨hinit, hall⟩ := ih (ExecutionContext.maxCounter init (f x))
      rw [List.foldl_cons]
      refine ⟨(le_maxCounter_left init (f x)).trans hinit, ?_⟩
      intro y hy
      rcases List.mem_cons.mp hy with rfl | hy
      · exact (le_maxCounter_right init (f y)).trans hinit
      · exact hall y hy

/-- A counter that stays below `2 ^ 64` moves on by twice the size. -/
theorem toNat_bump {p offsetSize : BitVec 64} (h : p.toNat + 2 * offsetSize.toNat < 2 ^ 64) :
    (p + 2 * offsetSize).toNat = p.toNat + 2 * offsetSize.toNat := by
  have htwo : (2 * offsetSize).toNat = 2 * offsetSize.toNat := by
    rw [BitVec.toNat_mul]
    exact Nat.mod_eq_of_lt (by change 2 * offsetSize.toNat < 2 ^ 64; omega)
  rw [BitVec.toNat_add, htwo]
  exact Nat.mod_eq_of_lt h

theorem advances_step {op : Op V} (hop : op.merges = false) (ctx : ExecutionContext V) (n : ℕ)
    (h : op.InRegion unknown ctx n) : Advances ctx (op.run unknown ctx n).1 := by
  cases op with
  | getGlobalPtr memspace offsetSize origSize =>
      rw [Op.InRegion] at h
      rw [Op.run]
      obtain ⟨-, hfits, -⟩ := h
      have hlt := ctx.localMemoryStart.isLt
      refine Advances.trans ?_ (ctx.getGlobalPtr_counters n memspace offsetSize origSize).advances
      refine ⟨?_, Nat.le_refl _, rfl, rfl⟩
      rw [toNat_bump (by omega)]
      omega
  | getLocalPtr memspace offsetSize origSize =>
      rw [Op.InRegion] at h
      rw [Op.run]
      obtain ⟨-, hfits, -⟩ := h
      have hlt := ctx.localMemoryEnd.isLt
      refine Advances.trans ?_ (ctx.getLocalPtr_counters n memspace offsetSize origSize).advances
      refine ⟨Nat.le_refl _, ?_, rfl, rfl⟩
      rw [toNat_bump (by omega)]
      omega
  | getBound memspace =>
      rw [Op.run]
      exact (ctx.sameCounters_gepBounds n memspace).advances
  | writeBound p bound memspace =>
      rw [Op.run]
      exact (ctx.sameCounters_writeBound n p bound memspace).advances
  | readExprFromMemory memspace =>
      rw [Op.run]
      exact (ctx.sameCounters_touch unknown n _).advances
  | writeExprToMemory ix val memspace =>
      rw [Op.run]
      exact (ctx.sameCounters_writeProperty unknown n _ ix val).advances
  | writeExprRangeToMemory start size val memspace =>
      rw [Op.run]
      exact (ctx.sameCounters_writeExprRangeToMemory unknown n start size val memspace).advances
  | readProperty id =>
      rw [Op.run]
      exact (ctx.sameCounters_touch unknown n id).advances
  | writeProperty id ix val =>
      rw [Op.run]
      exact (ctx.sameCounters_writeProperty unknown n id ix val).advances
  | externalizeEverythingMutable pfix =>
      rw [Op.run]
      exact ⟨Nat.le_refl _, Nat.le_refl _, rfl, rfl⟩
  | switchOn branches => cases hop
  | externalSwitchOn branches pfix => cases hop

theorem advances_takeOver (ctx : ExecutionContext V) (n : ℕ)
    {contexts : List ((Assignment V → Bool) × ExecutionContext V)} (hne : contexts ≠ [])
    (hctx : ∀ e ∈ contexts, Advances ctx e.2) {merged : ExecutionContext V}
    (hglobal : merged.globalPtr =
      (ExecutionContext.mergeCounters unknown n contexts).globalPtr)
    (hlocal : merged.localPtr = (ExecutionContext.mergeCounters unknown n contexts).localPtr) :
    Advances ctx (ctx.takeOver merged) ∧
      ∀ e ∈ contexts, Advances e.2 (ctx.takeOver merged) := by
  have hmax : ∀ e ∈ contexts, Advances e.2 (ctx.takeOver merged) := by
    intro e he
    refine ⟨?_, ?_, (hctx e he).localMemoryStart.symm, (hctx e he).localMemoryEnd.symm⟩
    · rw [ExecutionContext.takeOver, hglobal]
      exact (le_foldl_maxCounter (fun e => e.2.globalPtr) contexts _).2 e he
    · rw [ExecutionContext.takeOver, hlocal]
      exact (le_foldl_maxCounter (fun e => e.2.localPtr) contexts _).2 e he
  obtain ⟨e, he⟩ := List.exists_mem_of_ne_nil contexts hne
  exact ⟨(hctx e he).trans (hmax e he), hmax⟩

/-! ## Covers -/

namespace ExecutionContext

/-- The counter of the global or of the local pointers. -/
def counter (ctx : ExecutionContext V) (isGlobal : Bool) : ℕ :=
  if isGlobal then ctx.globalPtr.toNat else ctx.localPtr.toNat

/-- The first address past the region of the global or of the local pointers. -/
def limit (ctx : ExecutionContext V) (isGlobal : Bool) : ℕ :=
  if isGlobal then ctx.localMemoryStart.toNat else ctx.localMemoryEnd.toNat

end ExecutionContext

theorem Advances.counter_le {ctx ctx' : ExecutionContext V} (h : Advances ctx ctx')
    (isGlobal : Bool) : ctx.counter isGlobal ≤ ctx'.counter isGlobal := by
  cases isGlobal with
  | false => exact h.localPtr
  | true => exact h.globalPtr

theorem Advances.limit_eq {ctx ctx' : ExecutionContext V} (h : Advances ctx ctx')
    (isGlobal : Bool) : ctx'.limit isGlobal = ctx.limit isGlobal := by
  unfold ExecutionContext.limit
  rw [h.localMemoryStart, h.localMemoryEnd]

/-- The pointers of a path lie between two contexts: from the counters of the first to those of the
second, inside of the regions, and one after the other. -/
structure Covered (ctx ctx' : ExecutionContext V) (path : List Allocation) : Prop where
  sized : ∀ a ∈ path, 0 < a.offsetSize.toNat
  above : ∀ a ∈ path, ctx.counter a.isGlobal ≤ a.base.toNat
  below : ∀ a ∈ path, a.stop ≤ ctx'.counter a.isGlobal
  inside : ∀ a ∈ path, a.stop ≤ ctx.limit a.isGlobal
  ordered : path.Pairwise fun a b => a.isGlobal = b.isGlobal → a.stop ≤ b.base.toNat

namespace Covered

theorem nil (ctx ctx' : ExecutionContext V) : Covered ctx ctx' [] :=
  ⟨nofun, nofun, nofun, nofun, .nil⟩

theorem mono {ctx ctx' ctx'' : ExecutionContext V} {path : List Allocation}
    (h : Covered ctx ctx' path) (hadv : Advances ctx' ctx'') : Covered ctx ctx'' path :=
  { h with below := fun a ha => (h.below a ha).trans (hadv.counter_le a.isGlobal) }

/-- Covers of consecutive runs compose. -/
theorem append {ctx ctx' ctx'' : ExecutionContext V} {path path' : List Allocation}
    (h : Covered ctx ctx' path) (hadv : Advances ctx ctx') (h' : Covered ctx' ctx'' path')
    (hadv' : Advances ctx' ctx'') : Covered ctx ctx'' (path ++ path') where
  sized := List.forall_mem_append.mpr ⟨h.sized, h'.sized⟩
  above := List.forall_mem_append.mpr
    ⟨h.above, fun a ha => (hadv.counter_le a.isGlobal).trans (h'.above a ha)⟩
  below := List.forall_mem_append.mpr ⟨(h.mono hadv').below, h'.below⟩
  inside := List.forall_mem_append.mpr
    ⟨h.inside, fun a ha => hadv.limit_eq a.isGlobal ▸ h'.inside a ha⟩
  ordered := by
    refine List.pairwise_append.mpr ⟨h.ordered, h'.ordered, ?_⟩
    intro a ha b hb hkind
    calc a.stop ≤ ctx'.counter a.isGlobal := h.below a ha
      _ = ctx'.counter b.isGlobal := by rw [hkind]
      _ ≤ b.base.toNat := h'.above b hb

/-- The cover of a single pointer. -/
theorem singleton {ctx ctx' : ExecutionContext V} {a : Allocation}
    (hsized : 0 < a.offsetSize.toNat) (habove : ctx.counter a.isGlobal ≤ a.base.toNat)
    (hbelow : a.stop ≤ ctx'.counter a.isGlobal) (hinside : a.stop ≤ ctx.limit a.isGlobal) :
    Covered ctx ctx' [a] :=
  ⟨List.forall_mem_singleton.mpr hsized, List.forall_mem_singleton.mpr habove,
    List.forall_mem_singleton.mpr hbelow, List.forall_mem_singleton.mpr hinside,
    List.pairwise_singleton _ _⟩

end Covered

/-- An address that is an `int` comes through the parameter of `getPtrConst` unchanged. -/
theorem getPtrConst_eq {p : BitVec 64} (h : p.toNat < 2 ^ 31) : getPtrConst p = p := by
  unfold getPtrConst
  apply BitVec.eq_of_toNat_eq
  have hmsb : (p.setWidth 32).msb = false := by
    rw [BitVec.msb_eq_false_iff_two_mul_lt, BitVec.toNat_setWidth]
    omega
  rw [BitVec.signExtend_eq_setWidth_of_msb_false hmsb, BitVec.toNat_setWidth, BitVec.toNat_setWidth]
  omega

theorem covered_step {op : Op V} (hop : op.merges = false) (ctx : ExecutionContext V) (n : ℕ)
    (h : op.InRegion unknown ctx n) :
    ∀ path ∈ op.allocations unknown ctx n, Covered ctx (op.run unknown ctx n).1 path := by
  have hadv := advances_step unknown hop ctx n h
  intro path hpath
  cases op with
  | getGlobalPtr memspace offsetSize origSize =>
      rw [Op.InRegion] at h
      rw [Op.allocations, List.mem_singleton] at hpath
      rw [Op.run] at hadv ⊢
      obtain ⟨hpos, hfits, hint⟩ := h
      subst hpath
      have hlt := ctx.localMemoryStart.isLt
      have hptr := getPtrConst_eq hint
      refine Covered.singleton (BitVec.lt_def.mp hpos) ?_ ?_ ?_
      · exact Nat.le_of_eq (by rw [hptr]; rfl)
      · change (getPtrConst ctx.globalPtr).toNat + _ ≤ _
        rw [hptr, ExecutionContext.counter, if_pos rfl,
          (ctx.getGlobalPtr_counters n memspace offsetSize origSize).1, toNat_bump (by omega)]
      · change (getPtrConst ctx.globalPtr).toNat + _ ≤ _
        rw [hptr]
        exact hfits
  | getLocalPtr memspace offsetSize origSize =>
      rw [Op.InRegion] at h
      rw [Op.allocations, List.mem_singleton] at hpath
      rw [Op.run] at hadv ⊢
      obtain ⟨hpos, hfits, hint⟩ := h
      subst hpath
      have hlt := ctx.localMemoryEnd.isLt
      have hptr := getPtrConst_eq hint
      refine Covered.singleton (BitVec.lt_def.mp hpos) ?_ ?_ ?_
      · exact Nat.le_of_eq (by rw [hptr]; rfl)
      · change (getPtrConst ctx.localPtr).toNat + _ ≤ _
        rw [hptr, ExecutionContext.counter, if_neg Bool.false_ne_true,
          (ctx.getLocalPtr_counters n memspace offsetSize origSize).2.1, toNat_bump (by omega)]
      · change (getPtrConst ctx.localPtr).toNat + _ ≤ _
        rw [hptr]
        exact hfits
  | switchOn branches => cases hop
  | externalSwitchOn branches pfix => cases hop
  | _ =>
      simp only [Op.allocations, List.mem_singleton] at hpath
      subst hpath
      exact Covered.nil _ _

/-! ## Covers of runs -/

/-- What a run does to a context: the counters advance and every path is covered. -/
structure Lays (ctx ctx' : ExecutionContext V) (paths : List (List Allocation)) : Prop where
  advances : Advances ctx ctx'
  covered : ∀ path ∈ paths, Covered ctx ctx' path

/-- A merge of at least one branch lays out what its branches lay out. -/
theorem lays_takeOver {ctx merged : ExecutionContext V} {n n' : ℕ}
    {branches : List ((Assignment V → Bool) × List (Op V))} (hne : branches ≠ [])
    (hbranches : (∀ e ∈ (runBranches unknown branches ctx n).1, Advances ctx e.2) ∧
      ∀ path ∈ branchAllocations unknown branches ctx n,
        ∃ e ∈ (runBranches unknown branches ctx n).1, Covered ctx e.2 path)
    (hglobal : merged.globalPtr = (ExecutionContext.mergeCounters unknown n'
      (runBranches unknown branches ctx n).1).globalPtr)
    (hlocal : merged.localPtr = (ExecutionContext.mergeCounters unknown n'
      (runBranches unknown branches ctx n).1).localPtr) :
    Lays ctx (ctx.takeOver merged)
      (if branches.isEmpty then [[]] else branchAllocations unknown branches ctx n) := by
  have hcontexts : (runBranches unknown branches ctx n).1 ≠ [] := by
    cases branches with
    | nil => exact absurd rfl hne
    | cons branch branches =>
        rw [runBranches_cons unknown branch.1 branch.2 branches]
        exact List.cons_ne_nil _ _
  obtain ⟨hadv, hmax⟩ :=
    advances_takeOver unknown ctx n' hcontexts hbranches.1 hglobal hlocal
  refine ⟨hadv, fun path hpath => ?_⟩
  have hnonempty : branches.isEmpty = false := by
    cases branches with
    | nil => exact absurd rfl hne
    | cons branch branches => rfl
  rw [if_neg (by rw [hnonempty]; exact Bool.false_ne_true)] at hpath
  obtain ⟨e, he, hcovered⟩ := hbranches.2 path hpath
  exact hcovered.mono (hmax e he)

/-- **Every run that meets the condition lays out its pointers between the counters.** -/
theorem lays_runAll (ops : List (Op V)) : ∀ (ctx : ExecutionContext V) (n : ℕ),
    InRegion unknown ops ctx n →
      Lays ctx (runAll unknown ops ctx n).1 (allocations unknown ops ctx n) := by
  refine runInduction
    (P := fun op => ∀ ctx n, op.InRegion unknown ctx n →
      Lays ctx (op.run unknown ctx n).1 (op.allocations unknown ctx n))
    (Q := fun ops => ∀ ctx n, InRegion unknown ops ctx n →
      Lays ctx (runAll unknown ops ctx n).1 (allocations unknown ops ctx n))
    (R := fun branches => ∀ ctx n, branchesInRegion unknown branches ctx n →
      (∀ e ∈ (runBranches unknown branches ctx n).1, Advances ctx e.2) ∧
        ∀ path ∈ branchAllocations unknown branches ctx n,
          ∃ e ∈ (runBranches unknown branches ctx n).1, Covered ctx e.2 path)
    ?_ ?_ ?_ ?_ ?_ ?_ ?_ ops
  · intro op hop ctx n h
    exact ⟨advances_step unknown hop ctx n h, covered_step unknown hop ctx n h⟩
  · intro branches ih ctx n h
    rw [Op.InRegion] at h
    rw [Op.run, Op.allocations]
    exact lays_takeOver unknown h.1 (ih ctx n h.2) rfl rfl
  · intro branches pfix ih ctx n h
    rw [Op.InRegion] at h
    rw [Op.run, Op.allocations]
    exact lays_takeOver unknown h.1 (ih ctx n h.2) rfl rfl
  · intro ctx n _
    rw [runAll_nil, allocations]
    refine ⟨Advances.refl ctx, fun path hpath => ?_⟩
    rw [List.mem_singleton.mp hpath]
    exact Covered.nil ctx ctx
  · intro op ops hop hops ctx n h
    rw [InRegion] at h
    have hfirst := hop ctx n h.1
    have hrest := hops _ _ h.2
    rw [runAll_cons, allocations]
    refine ⟨hfirst.advances.trans hrest.advances, fun path hpath => ?_⟩
    obtain ⟨first, hmem, hpath⟩ := List.mem_flatMap.mp hpath
    obtain ⟨rest, hmem', rfl⟩ := List.mem_map.mp hpath
    exact (hfirst.covered first hmem).append hfirst.advances (hrest.covered rest hmem')
      hrest.advances
  · intro ctx n _
    rw [runBranches, branchAllocations]
    exact ⟨fun e he => absurd he List.not_mem_nil, fun path hpath => absurd hpath List.not_mem_nil⟩
  · intro cond ops branches hops hbranches ctx n h
    rw [branchesInRegion] at h
    have hfirst := hops ctx n h.1
    obtain ⟨hadv, hcovered⟩ := hbranches _ _ h.2
    rw [runBranches_cons, branchAllocations]
    refine ⟨List.forall_mem_cons.mpr ⟨hfirst.advances, hadv⟩, fun path hpath => ?_⟩
    rcases List.mem_append.mp hpath with hpath | hpath
    · exact ⟨_, List.mem_cons_self, hfirst.covered path hpath⟩
    · obtain ⟨e, he, hpath⟩ := hcovered path hpath
      exact ⟨e, List.mem_cons_of_mem _ he, hpath⟩

/-- The rest of a run meets the condition where it starts. -/
theorem inRegion_of_append {ops later : List (Op V)} {ctx : ExecutionContext V} {n : ℕ}
    (h : InRegion unknown (ops ++ later) ctx n) :
    InRegion unknown later (runAll unknown ops ctx n).1 (runAll unknown ops ctx n).2 := by
  induction ops generalizing ctx n with
  | nil => rwa [runAll_nil]
  | cons op ops ih =>
      rw [List.cons_append, InRegion] at h
      rw [runAll_cons]
      exact ih h.2

/-! ## Separate pointers -/

/-- An address of a range that ends below `2 ^ 64` is a number of the range. -/
theorem Allocation.toNat_of_covers {a : Allocation} (hstop : a.stop ≤ 2 ^ 64) {p : Pointer}
    (hp : a.Covers p) : a.base.toNat ≤ p.toNat ∧ p.toNat < a.stop := by
  obtain ⟨k, hk, rfl⟩ := hp
  unfold stop at hstop ⊢
  rw [BitVec.toNat_add, BitVec.toNat_ofNat, Nat.mod_eq_of_lt (a := k) (by omega),
    Nat.mod_eq_of_lt (by omega)]
  omega

theorem Allocation.disjoint_of_le {a b : Allocation} (ha : a.stop ≤ 2 ^ 64) (hb : b.stop ≤ 2 ^ 64)
    (h : a.stop ≤ b.base.toNat ∨ b.stop ≤ a.base.toNat) : a.Disjoint b := by
  rintro p ⟨hpa, hpb⟩
  have hpa := toNat_of_covers ha hpa
  have hpb := toNat_of_covers hb hpb
  omega

/-- What is covered from the first addresses of the regions on is separate. -/
theorem Covered.separate {ctx ctx' : ExecutionContext V} {path : List Allocation}
    (h : Covered ctx ctx' path) (hglobal : ctx.globalPtr = 1)
    (hlocal : ctx.localPtr = ctx.localMemoryStart) (hstart : 0 < ctx.localMemoryStart) :
    Separate ctx.localMemoryStart ctx.localMemoryEnd path := by
  have hpos : 0 < ctx.localMemoryStart.toNat := BitVec.lt_def.mp hstart
  have hcounter : ∀ isGlobal, 0 < ctx.counter isGlobal := by
    intro isGlobal
    cases isGlobal with
    | false => rw [ExecutionContext.counter, if_neg Bool.false_ne_true, hlocal]; exact hpos
    | true => rw [ExecutionContext.counter, if_pos rfl, hglobal]; decide
  have hstop : ∀ a ∈ path, a.stop ≤ 2 ^ 64 := by
    intro a ha
    refine (h.inside a ha).trans ?_
    unfold ExecutionContext.limit
    split
    · exact Nat.le_of_lt ctx.localMemoryStart.isLt
    · exact Nat.le_of_lt ctx.localMemoryEnd.isLt
  have hbase : ∀ a ∈ path, a.base.toNat < a.stop := by
    intro a ha
    have := h.sized a ha
    unfold Allocation.stop
    omega
  have hglobals : ∀ a ∈ path, a.isGlobal = true → a.stop ≤ ctx.localMemoryStart.toNat := by
    intro a ha hkind
    have := h.inside a ha
    rwa [hkind, ExecutionContext.limit, if_pos rfl] at this
  have hlocals : ∀ a ∈ path, a.isGlobal = false →
      ctx.localMemoryStart.toNat ≤ a.base.toNat ∧ a.stop ≤ ctx.localMemoryEnd.toNat := by
    intro a ha hkind
    have habove := h.above a ha
    have hinside := h.inside a ha
    rw [hkind, ExecutionContext.counter, if_neg Bool.false_ne_true, hlocal] at habove
    rw [hkind, ExecutionContext.limit, if_neg Bool.false_ne_true] at hinside
    exact ⟨habove, hinside⟩
  -- pointers of one kind come one after the other, of two kinds on the two sides of the region
  have happart : path.Pairwise fun a b =>
      a.stop ≤ b.base.toNat ∨ b.stop ≤ a.base.toNat := by
    refine h.ordered.imp_of_mem fun {a b} ha hb hordered => ?_
    cases hka : a.isGlobal with
    | false =>
        cases hkb : b.isGlobal with
        | false => exact Or.inl (hordered (hka.trans hkb.symm))
        | true => exact Or.inr ((hglobals b hb hkb).trans (hlocals a ha hka).1)
    | true =>
        cases hkb : b.isGlobal with
        | false => exact Or.inl ((hglobals a ha hka).trans (hlocals b hb hkb).1)
        | true => exact Or.inl (hordered (hka.trans hkb.symm))
  refine ⟨?_, ?_, ?_, ?_, ?_⟩
  · intro a ha hnull
    have := h.above a ha
    rw [hnull] at this
    exact absurd this (Nat.not_le_of_lt (hcounter a.isGlobal))
  · refine List.pairwise_map.mpr (happart.imp_of_mem fun {a b} ha hb hab heq => ?_)
    have ha := hbase a ha
    have hb := hbase b hb
    rw [heq] at hab ha
    omega
  · exact happart.imp_of_mem fun ha hb hab =>
      Allocation.disjoint_of_le (hstop _ ha) (hstop _ hb) hab
  · intro a ha hkind
    exact BitVec.lt_def.mpr ((hbase a ha).trans_le (hglobals a ha hkind))
  · intro a ha hkind
    obtain ⟨habove, hinside⟩ := hlocals a ha hkind
    exact ⟨BitVec.le_def.mpr habove, BitVec.lt_def.mpr ((hbase a ha).trans_le hinside)⟩

/-- **Modelled allocations do not overlap**, in every run of a context whose region does not start
at the null pointer, where every request is for something and stays in its region and in the range
of an `int`, and every merge has a branch: the pointers along each path are separate, and the
counters never decrease from a moment of the run to a later one. -/
theorem allocations_separate (n : ℕ) {localMemoryStart localMemoryEnd : BitVec 64}
    (hstart : 0 < localMemoryStart) (ops later : List (Op V))
    (h : InRegion unknown (ops ++ later)
      (ExecutionContext.init unknown n localMemoryStart localMemoryEnd) (n + 1)) :
    (∀ path ∈ allocations unknown (ops ++ later)
        (ExecutionContext.init unknown n localMemoryStart localMemoryEnd) (n + 1),
      Separate localMemoryStart localMemoryEnd path) ∧
    Advances
      (runAll unknown ops
        (ExecutionContext.init unknown n localMemoryStart localMemoryEnd) (n + 1)).1
      (runAll unknown (ops ++ later)
        (ExecutionContext.init unknown n localMemoryStart localMemoryEnd) (n + 1)).1 := by
  constructor
  · intro path hpath
    exact ((lays_runAll unknown _ _ _ h).covered path hpath).separate rfl rfl hstart
  · rw [runAll_append]
    exact (lays_runAll unknown later _ _ (inRegion_of_append unknown h)).advances

/-- A request for a local object of this size. -/
def askLocal (offsetSize : BitVec 64) : Op Unit :=
  .getLocalPtr 0 offsetSize (ExecutionContext.defaultBound offsetSize)

/-- Two requests, the second in one of two branches, and a third after the merge. -/
theorem allocations_separate_branches :
    let ops := [askLocal 1]
    let later := [.switchOn [(fun _ => true, [askLocal 2]), (fun _ => false, [])], askLocal 3]
    (∀ path ∈ allocations false (ops ++ later) (ExecutionContext.init false 0 16 64) 1,
        Separate 16 64 path) ∧
      Advances (runAll false ops (ExecutionContext.init false 0 16 64) 1).1
        (runAll false (ops ++ later) (ExecutionContext.init false 0 16 64) 1).1 := by
  intro ops later
  refine allocations_separate false 0 (by decide) ops later ?_
  refine ⟨⟨by decide, by decide, by decide⟩, ⟨List.cons_ne_nil _ _, ?_, trivial, trivial⟩, ?_, trivial⟩
  · exact ⟨⟨by decide, by decide, by decide⟩, trivial⟩
  · exact ⟨by decide, by decide, by decide⟩

/-- After the merge of no branches the next local pointer is null, and two requests for nothing get
the same pointer. -/
theorem allocations_collide :
    (¬ ∀ ops : List (Op Unit), ∀ path ∈ allocations false ops (ExecutionContext.init false 0 16 64) 1,
        Separate 16 64 path) ∧
      ¬ Advances (runAll false [askLocal 1] (ExecutionContext.init false 0 16 64) 1).1
        (runAll false ([askLocal 1] ++ [.switchOn []]) (ExecutionContext.init false 0 16 64) 1).1 ∧
      allocations false [askLocal 0, askLocal 0] (ExecutionContext.init false 0 16 64) 1 =
        [[⟨16, 0, false⟩, ⟨16, 0, false⟩]] := by
  refine ⟨?_, ?_, rfl⟩
  · intro h
    have hpath : [⟨16, 1, false⟩, ⟨0, 1, false⟩] ∈ allocations false
        [askLocal 1, .switchOn [], askLocal 1] (ExecutionContext.init false 0 16 64) 1 :=
      List.mem_singleton.mpr rfl
    exact (h _ _ hpath).nonNull ⟨0, 1, false⟩ (by decide) rfl
  · intro h
    have := h.localPtr
    exact absurd this (by decide)

end SMT

end Borealis
