import Borealis.SMT.Support
import Mathlib.Algebra.Order.Ring.Nat

/-!
# The axioms of a branch

A branch adds an axiom for every bound that it writes and for every range write (`added`).  A bound is
about the bounds array of its memory space, which was there before the branch or was made by the
branch, and stays the same from then on (`BoundsFrom`).
-/

namespace Borealis

namespace SMT

variable {V : Type} (unknown : Bool)

/-! ## What a branch says -/

/-- The operations on memory and bounds. -/
def Op.isMemoryOp : Op V → Bool
  | .getGlobalPtr _ _ _ => true
  | .getLocalPtr _ _ _ => true
  | .getBound _ => true
  | .writeBound _ _ _ => true
  | .readExprFromMemory _ => true
  | .writeExprToMemory _ _ _ => true
  | .writeExprRangeToMemory _ _ _ _ => true
  | _ => false

theorem Op.isBasic_of_isMemoryOp {op : Op V} (h : op.isMemoryOp = true) : op.isBasic = true := by
  cases op with
  | switchOn branches => cases h
  | externalSwitchOn branches pfix => cases h
  | externalizeEverythingMutable pfix => cases h
  | _ => rfl

/-- A bound that an operation writes. -/
structure BoundWrite (V : Type) where
  memspace : ℕ
  p : Assignment V → Pointer
  bound : AnyBitVector V

/-- The bound that an operation writes in a context. -/
def Op.boundWrite : Op V → ExecutionContext V → Option (BoundWrite V)
  | .getGlobalPtr memspace _ origSize, ctx =>
    some ⟨memspace, fun _ => getPtrConst ctx.globalPtr, origSize⟩
  | .getLocalPtr memspace _ origSize, ctx =>
    some ⟨memspace, fun _ => getPtrConst ctx.localPtr, origSize⟩
  | .writeBound p bound memspace, _ => some ⟨memspace, p, bound⟩
  | _, _ => none

/-- The bounds that a run writes. -/
def boundWrites : List (Op V) → ExecutionContext V → ℕ → List (BoundWrite V)
  | [], _, _ => []
  | op :: ops, ctx, n =>
    (op.boundWrite ctx).toList ++ boundWrites ops (op.run unknown ctx n).1 (op.run unknown ctx n).2

/-- The axioms that come with the expressions of an operation. -/
def Op.axiomsHold (ρ : Assignment V) : Op V → Prop
  | .getGlobalPtr _ _ origSize => origSize.axioms ρ
  | .getLocalPtr _ _ origSize => origSize.axioms ρ
  | .writeBound _ bound _ => bound.axioms ρ
  | .writeExprRangeToMemory start _ val _ => start.axioms ρ ∧ val.axioms ρ
  | _ => True

/-- Bounds are compatible with values of the bounds arrays: a bound written to an array that was there
before the branches is the one that the array has; a bound written to an array of the branch itself is
the one that was chosen for it, as minus one is for null; and the axioms that come with the expressions
hold. -/
structure Compatible (D : ExecutionContext V) (bounds : String → Pointer → Byte)
    (writes : List (BoundWrite V)) (ops : List (Op V)) (ρ : Assignment V) : Prop where
  null : ∀ id, bounds id getNullPtr = -1
  shared : ∀ w ∈ writes, ∀ a, D.memArrays (gepBoundsId w.memspace) = some a →
    a.mem.select w.p w.bound.bitSize ρ = w.bound.expr ρ
  own : ∀ w ∈ writes, D.memArrays (gepBoundsId w.memspace) = none →
    MemArray.select (fun _ => bounds (gepBoundsId w.memspace)) w.p w.bound.bitSize ρ =
      w.bound.expr ρ
  axioms : ∀ op ∈ ops, op.axiomsHold ρ

/-- What a branch says about bounds can be true under an assignment: it contradicts neither the arrays
that were there before the branches, nor the bound of null, nor itself. -/
def NoConflict (D : ExecutionContext V) (ops : List (Op V)) (n : ℕ) (ρ : Assignment V) : Prop :=
  ∃ bounds, Compatible D bounds (boundWrites unknown ops D n) ops ρ

/-- The pointers, bounds and axioms of an operation do not read these constants. -/
def Op.Settled (S : Set ArrayName) : Op V → Prop
  | .getGlobalPtr _ _ origSize => SMT.Ignores S origSize.expr ∧ SMT.Ignores S origSize.axioms
  | .getLocalPtr _ _ origSize => SMT.Ignores S origSize.expr ∧ SMT.Ignores S origSize.axioms
  | .writeBound p bound _ => SMT.Ignores S p ∧ SMT.Ignores S bound.expr ∧ SMT.Ignores S bound.axioms
  | .writeExprRangeToMemory start _ val _ => SMT.Ignores S start.axioms ∧ SMT.Ignores S val.axioms
  | _ => True

/-! ## The axioms that a run adds -/

/-- The axioms that an operation adds. -/
def Op.added : Op V → ExecutionContext V → ℕ → List (Assignment V → Prop)
  | .getGlobalPtr memspace _ origSize, ctx, n =>
    [ExecutionContext.boundAxiom (ctx.gepBounds n memspace).1.mem
      (fun _ => getPtrConst ctx.globalPtr) origSize]
  | .getLocalPtr memspace _ origSize, ctx, n =>
    [ExecutionContext.boundAxiom (ctx.gepBounds n memspace).1.mem
      (fun _ => getPtrConst ctx.localPtr) origSize]
  | .writeBound p bound memspace, ctx, n =>
    [ExecutionContext.boundAxiom (ctx.gepBounds n memspace).1.mem p bound]
  | .writeExprRangeToMemory start size val memspace, ctx, n =>
    [ExecutionContext.rangeAxiom (getEmptyMemoryArray n (memoryId memspace) 1)
      (ctx.peek unknown n 0 (memoryId memspace)).mem start size val]
  | _, _, _ => []

/-- The axioms that a run adds. -/
def added : List (Op V) → ExecutionContext V → ℕ → List (Assignment V → Prop)
  | [], _, _ => []
  | op :: ops, ctx, n =>
    added ops (op.run unknown ctx n).1 (op.run unknown ctx n).2 ++ op.added unknown ctx n

theorem touch_contextAxioms (ctx : ExecutionContext V) (n : ℕ) (id : String) :
    (ctx.touch unknown n id).contextAxioms = ctx.contextAxioms := by
  unfold ExecutionContext.touch
  cases ctx.memArrays id <;> rfl

theorem gepBounds_contextAxioms (ctx : ExecutionContext V) (n memspace : ℕ) :
    (ctx.gepBounds n memspace).2.contextAxioms = ctx.contextAxioms := by
  unfold ExecutionContext.gepBounds
  cases ctx.memArrays (gepBoundsId memspace) <;> rfl

theorem writeBound_contextAxioms (ctx : ExecutionContext V) (n memspace : ℕ)
    (p : Assignment V → Pointer) (bound : AnyBitVector V) :
    (ctx.writeBound n p bound memspace).contextAxioms =
      ExecutionContext.boundAxiom (ctx.gepBounds n memspace).1.mem p bound ::
        ctx.contextAxioms := by
  rw [← gepBounds_contextAxioms ctx n memspace]
  rfl

/-- The counters do not matter to the bounds. -/
theorem gepBounds_fst_congr (ctx ctx' : ExecutionContext V)
    (h : ctx'.memArrays = ctx.memArrays) (n memspace : ℕ) : (ctx'.gepBounds n memspace).1 = (ctx.gepBounds n memspace).1 := by
  unfold ExecutionContext.gepBounds
  rw [h]
  cases ctx.memArrays (gepBoundsId memspace) <;> rfl

theorem contextAxioms_op {op : Op V} (hop : op.isMemoryOp = true) (ctx : ExecutionContext V)
    (n : ℕ) :
    (op.run unknown ctx n).1.contextAxioms = op.added unknown ctx n ++ ctx.contextAxioms := by
  cases op with
  | getGlobalPtr memspace offsetSize origSize =>
      have hsame : (ExecutionContext.gepBounds
          { ctx with globalPtr := ctx.globalPtr + 2 * offsetSize } n memspace).1 =
            (ctx.gepBounds n memspace).1 :=
        gepBounds_fst_congr ctx { ctx with globalPtr := ctx.globalPtr + 2 * offsetSize } rfl n memspace
      rw [Op.run, Op.added, ← hsame]
      exact writeBound_contextAxioms { ctx with globalPtr := ctx.globalPtr + 2 * offsetSize } n
        memspace (fun _ => getPtrConst ctx.globalPtr) origSize
  | getLocalPtr memspace offsetSize origSize =>
      have hsame : (ExecutionContext.gepBounds
          { ctx with localPtr := ctx.localPtr + 2 * offsetSize } n memspace).1 =
            (ctx.gepBounds n memspace).1 :=
        gepBounds_fst_congr ctx { ctx with localPtr := ctx.localPtr + 2 * offsetSize } rfl n memspace
      rw [Op.run, Op.added, ← hsame]
      exact writeBound_contextAxioms { ctx with localPtr := ctx.localPtr + 2 * offsetSize } n
        memspace (fun _ => getPtrConst ctx.localPtr) origSize
  | getBound memspace =>
      rw [Op.run]
      exact gepBounds_contextAxioms ctx n memspace
  | writeBound p bound memspace =>
      rw [Op.run]
      exact writeBound_contextAxioms ctx n memspace p bound
  | readExprFromMemory memspace =>
      rw [Op.run]
      exact touch_contextAxioms unknown ctx n _
  | writeExprToMemory ix val memspace =>
      rw [Op.run]
      exact touch_contextAxioms unknown ctx n _
  | writeExprRangeToMemory start size val memspace =>
      rw [Op.run]
      exact congrArg (_ :: ·) (touch_contextAxioms unknown ctx n (memoryId memspace))
  | _ => cases hop

/-- The axioms of a run are those that were there and those that were added. -/
theorem contextAxioms_runAll {ops : List (Op V)} (hops : ∀ op ∈ ops, op.isMemoryOp = true)
    (ctx : ExecutionContext V) (n : ℕ) :
    (runAll unknown ops ctx n).1.contextAxioms = added unknown ops ctx n ++ ctx.contextAxioms := by
  induction ops generalizing ctx n with
  | nil => rw [runAll_nil, added, List.nil_append]
  | cons op ops ih =>
      rw [runAll_cons, added, ih fun op' hop' => hops op' (List.mem_cons_of_mem _ hop'),
        contextAxioms_op unknown (hops op List.mem_cons_self), List.append_assoc]

/-! ## The bounds arrays of a branch -/

/-- The bounds arrays of a branch are those that were there before it and those that one of its
operations so far has made. -/
structure BoundsFrom (D : ExecutionContext V) (s n : ℕ) (ctx : ExecutionContext V) : Prop where
  shared : ∀ memspace a, D.memArrays (gepBoundsId memspace) = some a →
    ctx.memArrays (gepBoundsId memspace) = some a
  own : ∀ memspace a, D.memArrays (gepBoundsId memspace) = none →
    ctx.memArrays (gepBoundsId memspace) = some a →
      ∃ t, s ≤ t ∧ t < n ∧ a = ExecutionContext.freshBounds t memspace

namespace BoundsFrom

variable {unknown} {D ctx ctx' : ExecutionContext V} {s n n' : ℕ}

theorem refl (D : ExecutionContext V) (s n : ℕ) : BoundsFrom D s n D :=
  ⟨fun _ _ h => h, fun _ _ hnone hsome => nomatch hnone.symm.trans hsome⟩

/-- Only the bounds arrays matter. -/
theorem congr (h : BoundsFrom D s n ctx) (hle : n ≤ n')
    (hmem : ∀ memspace, ctx'.memArrays (gepBoundsId memspace) =
      ctx.memArrays (gepBoundsId memspace)) : BoundsFrom D s n' ctx' := by
  constructor
  · intro memspace a ha
    rw [hmem]
    exact h.shared memspace a ha
  · intro memspace a hnone ha
    rw [hmem] at ha
    obtain ⟨t, hs, ht, rfl⟩ := h.own memspace a hnone ha
    exact ⟨t, hs, ht.trans_le hle, rfl⟩

/-- The array that an operation on bounds finds or makes. -/
theorem gepBounds_fst (h : BoundsFrom D s n ctx) (hs : s ≤ n) (memspace : ℕ) :
    (∀ a, D.memArrays (gepBoundsId memspace) = some a → (ctx.gepBounds n memspace).1 = a) ∧
      (D.memArrays (gepBoundsId memspace) = none →
        ∃ t, s ≤ t ∧ t < n + 1 ∧
          (ctx.gepBounds n memspace).1 = ExecutionContext.freshBounds t memspace) := by
  unfold ExecutionContext.gepBounds
  cases hctx : ctx.memArrays (gepBoundsId memspace) with
  | some a =>
      refine ⟨fun b hb => ?_, fun hnone => ?_⟩
      · exact Option.some.inj (hctx.symm.trans (h.shared memspace b hb))
      · obtain ⟨t, hst, htn, rfl⟩ := h.own memspace a hnone hctx
        exact ⟨t, hst, Nat.lt_succ_of_lt htn, rfl⟩
  | none =>
      refine ⟨fun b hb => ?_, fun _ => ⟨n, hs, Nat.lt_succ_self n, rfl⟩⟩
      cases hctx.symm.trans (h.shared memspace b hb)

theorem gepBounds_snd (h : BoundsFrom D s n ctx) (hs : s ≤ n) (memspace : ℕ) :
    BoundsFrom D s (n + 1) (ctx.gepBounds n memspace).2 := by
  unfold ExecutionContext.gepBounds
  cases hctx : ctx.memArrays (gepBoundsId memspace) with
  | some a => exact h.congr (Nat.le_succ n) fun _ => rfl
  | none =>
      constructor
      · intro m a ha
        have hheld := h.shared m a ha
        have hne : gepBoundsId m ≠ gepBoundsId memspace := by
          intro heq
          rw [heq, hctx] at hheld
          cases hheld
        exact (ExecutionContext.set_of_ne hne _ _).trans hheld
      · intro m a hnone ha
        by_cases hne : gepBoundsId m = gepBoundsId memspace
        · refine ⟨n, hs, Nat.lt_succ_self n, ?_⟩
          rw [hne] at ha
          have := Option.some.inj ((ExecutionContext.set_self ctx _ _).symm.trans ha)
          rw [← this, gepBoundsId_injective hne]
        · have ha := (ExecutionContext.set_of_ne hne ctx _).symm.trans ha
          obtain ⟨t, hst, htn, rfl⟩ := h.own m a hnone ha
          exact ⟨t, hst, Nat.lt_succ_of_lt htn, rfl⟩

theorem touch (h : BoundsFrom D s n ctx) (m memspace : ℕ) :
    BoundsFrom D s (n + 1) (ctx.touch unknown m (memoryId memspace)) :=
  h.congr (Nat.le_succ n) fun memspace' =>
    (ExecutionContext.touch_of_ne unknown (memoryId_ne_gepBoundsId memspace memspace').symm ctx m).1

theorem set (h : BoundsFrom D s n ctx) (memspace : ℕ) (value : MemArrayWithVersion V) :
    BoundsFrom D s n (ctx.set (memoryId memspace) value) :=
  h.congr (Nat.le_refl n) fun memspace' =>
    ExecutionContext.set_of_ne (memoryId_ne_gepBoundsId memspace memspace').symm ctx value

end BoundsFrom

theorem boundsFrom_op {op : Op V} (hop : op.isMemoryOp = true) {D ctx : ExecutionContext V}
    {s n : ℕ} (h : BoundsFrom D s n ctx) (hs : s ≤ n) :
    BoundsFrom D s (n + 1) (op.run unknown ctx n).1 := by
  cases op with
  | getGlobalPtr memspace offsetSize origSize =>
      rw [Op.run]
      have hcounter : BoundsFrom D s n { ctx with globalPtr := ctx.globalPtr + 2 * offsetSize } :=
        h.congr (Nat.le_refl n) fun _ => rfl
      exact (hcounter.gepBounds_snd hs memspace).congr (Nat.le_refl _) fun _ => rfl
  | getLocalPtr memspace offsetSize origSize =>
      rw [Op.run]
      have hcounter : BoundsFrom D s n { ctx with localPtr := ctx.localPtr + 2 * offsetSize } :=
        h.congr (Nat.le_refl n) fun _ => rfl
      exact (hcounter.gepBounds_snd hs memspace).congr (Nat.le_refl _) fun _ => rfl
  | getBound memspace =>
      rw [Op.run]
      exact h.gepBounds_snd hs memspace
  | writeBound p bound memspace =>
      rw [Op.run]
      exact (h.gepBounds_snd hs memspace).congr (Nat.le_refl _) fun _ => rfl
  | readExprFromMemory memspace =>
      rw [Op.run]
      exact h.touch n memspace
  | writeExprToMemory ix val memspace =>
      rw [Op.run]
      exact (h.touch n memspace).set memspace _
  | writeExprRangeToMemory start size val memspace =>
      rw [Op.run]
      exact ((h.touch n memspace).set memspace _).congr (Nat.le_refl _) fun _ => rfl
  | _ => cases hop

end SMT

end Borealis
