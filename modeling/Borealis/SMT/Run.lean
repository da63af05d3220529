import Borealis.SMT.ExecutionContext

/-!
# Runs of an execution context

What a predicate state does to the context it is translated in: a list of operations, each with the
expressions it is called with, numbered in the order they are performed in.  A choice copies the
context for every alternative, translates the alternatives one after the other on their copies, and
merges the copies into the context (`SMTImpl<Impl, PredicateStateChoice>::doit`).
-/

namespace Borealis

namespace SMT

/-- The operations of a context, the merges with the runs of their branches. -/
inductive Op (V : Type)
  | getGlobalPtr (memspace : ℕ) (offsetSize : BitVec 64) (origSize : AnyBitVector V)
  | getLocalPtr (memspace : ℕ) (offsetSize : BitVec 64) (origSize : AnyBitVector V)
  | getBound (memspace : ℕ)
  | writeBound (p : Assignment V → Pointer) (bound : AnyBitVector V) (memspace : ℕ)
  | readExprFromMemory (memspace : ℕ)
  | writeExprToMemory (ix : Assignment V → Pointer) (val : AnyBitVector V) (memspace : ℕ)
  | writeExprRangeToMemory (start : ValueExpr V Pointer) (size : BitVec 64) (val : ValueExpr V Byte)
      (memspace : ℕ)
  | readProperty (id : String)
  | writeProperty (id : String) (ix : Assignment V → Pointer) (val : AnyBitVector V)
  | externalizeEverythingMutable (pfix : String)
  | switchOn (branches : List ((Assignment V → Bool) × List (Op V)))
  | externalSwitchOn (branches : List ((Assignment V → Bool) × List (Op V))) (pfix : String)

variable {V : Type} (unknown : Bool)

mutual
/-- One operation, from a context and the number of operations so far. -/
def Op.run : Op V → ExecutionContext V → ℕ → ExecutionContext V × ℕ
  | .getGlobalPtr memspace offsetSize origSize, ctx, n =>
    (ctx.getGlobalPtr n memspace offsetSize origSize, n + 1)
  | .getLocalPtr memspace offsetSize origSize, ctx, n =>
    (ctx.getLocalPtr n memspace offsetSize origSize, n + 1)
  | .getBound memspace, ctx, n => ((ctx.gepBounds n memspace).2, n + 1)
  | .writeBound p bound memspace, ctx, n => (ctx.writeBound n p bound memspace, n + 1)
  | .readExprFromMemory memspace, ctx, n => (ctx.readExprFromMemory unknown n memspace, n + 1)
  | .writeExprToMemory ix val memspace, ctx, n =>
    (ctx.writeExprToMemory unknown n ix val memspace, n + 1)
  | .writeExprRangeToMemory start size val memspace, ctx, n =>
    (ctx.writeExprRangeToMemory unknown n start size val memspace, n + 1)
  | .readProperty id, ctx, n => ((ctx.get unknown n id).2, n + 1)
  | .writeProperty id ix val, ctx, n => (ctx.writeProperty unknown n id ix val, n + 1)
  | .externalizeEverythingMutable pfix, ctx, n => (ctx.externalizeEverythingMutable pfix, n + 1)
  | .switchOn branches, ctx, n =>
    let (contexts, n) := runBranches branches ctx n
    (ctx.switchOn unknown n contexts, n + 2)
  | .externalSwitchOn branches pfix, ctx, n =>
    let (contexts, n) := runBranches branches ctx n
    (ctx.externalSwitchOn unknown n contexts pfix, n + 2)

/-- The operations of a list, one after the other. -/
def runAll : List (Op V) → ExecutionContext V → ℕ → ExecutionContext V × ℕ
  | [], ctx, n => (ctx, n)
  | op :: ops, ctx, n =>
    let (ctx, n) := op.run ctx n
    runAll ops ctx n

/-- The branches of a choice, each on a copy of the context. -/
def runBranches : List ((Assignment V → Bool) × List (Op V)) → ExecutionContext V → ℕ →
    List ((Assignment V → Bool) × ExecutionContext V) × ℕ
  | [], _, n => ([], n)
  | (cond, ops) :: branches, ctx, n =>
    let (choiceCtx, n) := runAll ops ctx n
    let (contexts, n) := runBranches branches ctx n
    ((cond, choiceCtx) :: contexts, n)
end

/-! ## Runs one after the other -/

@[simp] theorem runAll_nil (ctx : ExecutionContext V) (n : ℕ) :
    runAll unknown [] ctx n = (ctx, n) := by
  rw [runAll]

theorem runAll_cons (op : Op V) (ops : List (Op V)) (ctx : ExecutionContext V) (n : ℕ) :
    runAll unknown (op :: ops) ctx n =
      runAll unknown ops (op.run unknown ctx n).1 (op.run unknown ctx n).2 := by
  rw [runAll]

theorem runAll_append (ops ops' : List (Op V)) (ctx : ExecutionContext V) (n : ℕ) :
    runAll unknown (ops ++ ops') ctx n =
      runAll unknown ops' (runAll unknown ops ctx n).1 (runAll unknown ops ctx n).2 := by
  induction ops generalizing ctx n with
  | nil => rw [List.nil_append, runAll_nil]
  | cons op ops ih => rw [List.cons_append, runAll_cons, runAll_cons, ih]

theorem runBranches_cons (cond : Assignment V → Bool) (ops : List (Op V))
    (branches : List ((Assignment V → Bool) × List (Op V))) (ctx : ExecutionContext V) (n : ℕ) :
    runBranches unknown ((cond, ops) :: branches) ctx n =
      ((cond, (runAll unknown ops ctx n).1) ::
        (runBranches unknown branches ctx (runAll unknown ops ctx n).2).1,
        (runBranches unknown branches ctx (runAll unknown ops ctx n).2).2) := by
  rw [runBranches]

/-! ## Induction on runs -/

/-- The operations that merge branches into the context. -/
def Op.merges : Op V → Bool
  | .switchOn _ => true
  | .externalSwitchOn _ _ => true
  | _ => false

section Induction

-- the three principles share their cases, and not each of them uses every case
set_option linter.unusedSectionVars false

variable {P : Op V → Prop} {Q : List (Op V) → Prop}
  {R : List ((Assignment V → Bool) × List (Op V)) → Prop}
  (hstep : ∀ op : Op V, op.merges = false → P op)
  (hswitchOn : ∀ branches, R branches → P (.switchOn branches))
  (hexternalSwitchOn : ∀ branches pfix, R branches → P (.externalSwitchOn branches pfix))
  (hnil : Q []) (hcons : ∀ op ops, P op → Q ops → Q (op :: ops))
  (hnone : R []) (hbranch : ∀ cond ops branches, Q ops → R branches → R ((cond, ops) :: branches))

include hstep hswitchOn hexternalSwitchOn hnil hcons hnone hbranch

mutual
/-- Induction on an operation. -/
theorem Op.induction : ∀ op : Op V, P op
  | .switchOn branches => hswitchOn branches (branchesInduction branches)
  | .externalSwitchOn branches pfix => hexternalSwitchOn branches pfix (branchesInduction branches)
  | .getGlobalPtr _ _ _ => hstep _ rfl
  | .getLocalPtr _ _ _ => hstep _ rfl
  | .getBound _ => hstep _ rfl
  | .writeBound _ _ _ => hstep _ rfl
  | .readExprFromMemory _ => hstep _ rfl
  | .writeExprToMemory _ _ _ => hstep _ rfl
  | .writeExprRangeToMemory _ _ _ _ => hstep _ rfl
  | .readProperty _ => hstep _ rfl
  | .writeProperty _ _ _ => hstep _ rfl
  | .externalizeEverythingMutable _ => hstep _ rfl

/-- Induction on a run. -/
theorem runInduction : ∀ ops : List (Op V), Q ops
  | [] => hnil
  | op :: ops => hcons op ops (Op.induction op) (runInduction ops)

/-- Induction on the branches of a choice. -/
theorem branchesInduction : ∀ branches : List ((Assignment V → Bool) × List (Op V)), R branches
  | [] => hnone
  | (cond, ops) :: branches =>
    hbranch cond ops branches (runInduction ops) (branchesInduction branches)
end

end Induction

end SMT

end Borealis
