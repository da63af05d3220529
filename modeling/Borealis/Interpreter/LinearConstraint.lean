import Borealis.Interpreter.IntervalDivision
import Borealis.Interpreter.IntervalSplit

/-!
# Linear constraints

`LinearExpression`, `LinearConstraint` and `LinearConstraintSystem` of
`Interpreter/Domain/Numerical` over machine integers of one width and signedness.  Every condition
is normalised to `expr == 0`, `expr != 0` or `expr <= 0`, with machine arithmetic on coefficients
and constants; a constraint is then read over the integers (`Holds`).

The arithmetic is that of the residues modulo `2^width`, so the stored numbers are the exact ones
wrapped into the range (`eval_difference`).  The constraint means what it was built from as long as
every exact number is in range (`Fits`).  What is not in range in practice: the coefficient `-1` of
an unsigned number, the constant `-MIN` of a signed one, and a constant that the added `1` carries
beyond `MAX`.

A condition between two operands compares the integers they stand for; the unsigned operators are
rewritten like the signed ones, the signedness being that of the numbers.
-/

namespace Borealis

variable {sign : Bool} {width : Nat} {Var : Type}

/-- `LinearExpression`.  A variable occurs once in the map `vars`. -/
structure LinearExpression (sign : Bool) (width : Nat) (Var : Type) where
  vars : List (Var × BitInt sign width)
  constant : BitInt sign width

namespace LinearExpression

/-! ## Expressions -/

/-- `LinearExpression(caster, Variable)`. -/
def ofVariable (v : Var) : LinearExpression sign width Var :=
  ⟨[(v, .ofInt 1)], .ofInt 0⟩

/-- `LinearExpression(caster, Number)`. -/
def ofNumber (n : BitInt sign width) : LinearExpression sign width Var :=
  ⟨[], n⟩

/-- `operator*=(const Number&)`. -/
def mul (e : LinearExpression sign width Var) (n : BitInt sign width) :
    LinearExpression sign width Var :=
  if n = .ofInt 0 then ⟨[], .ofInt 0⟩
  else ⟨e.vars.map fun (v, c) => (v, c * n), e.constant * n⟩

/-- `operator-()`. -/
def neg (e : LinearExpression sign width Var) : LinearExpression sign width Var :=
  e.mul (.ofInt (-1))

/-- `operator+=(const Number&)`. -/
def addNumber (e : LinearExpression sign width Var) (n : BitInt sign width) :
    LinearExpression sign width Var :=
  { e with constant := e.constant + n }

/-- `operator-=(const Number&)`. -/
def subNumber (e : LinearExpression sign width Var) (n : BitInt sign width) :
    LinearExpression sign width Var :=
  { e with constant := e.constant - n }

section Terms

variable [DecidableEq Var]

/-- `add(const Number&, Variable)`. -/
def add (e : LinearExpression sign width Var) (cst : BitInt sign width) (var : Var) :
    LinearExpression sign width Var :=
  match e.vars.lookup var with
  | some c =>
    if c + cst = .ofInt 0 then { e with vars := e.vars.filter fun (v, _) => v ≠ var }
    else { e with vars := e.vars.map fun (v, c') => if v = var then (v, c + cst) else (v, c') }
  | none => if cst ≠ .ofInt 0 then { e with vars := (var, cst) :: e.vars } else e

/-- `operator-=(const LinearExpression&)`. -/
def sub (e expr : LinearExpression sign width Var) : LinearExpression sign width Var :=
  (expr.vars.foldl (fun e (v, c) => e.add (-c) v) e).subNumber expr.constant

end Terms

/-- The value of an expression, all numbers read as integers. -/
def eval (ρ : Var → BitInt sign width) (e : LinearExpression sign width Var) : ℤ :=
  (e.vars.map fun (v, c) => c.toInt * (ρ v).toInt).sum + e.constant.toInt

end LinearExpression

/-! ## Constraints -/

/-- `LinearConstraint::Kind`. -/
inductive ConstraintKind where
  | equality | inequality | comparison
deriving DecidableEq, Repr

/-- What a constraint of the kind asks of the value of its expression. -/
def ConstraintKind.Holds : ConstraintKind → ℤ → Prop
  | equality, z => z = 0
  | inequality, z => z ≠ 0
  | comparison, z => z ≤ 0

/-- `LinearConstraint`. -/
structure LinearConstraint (sign : Bool) (width : Nat) (Var : Type) where
  expr : LinearExpression sign width Var
  kind : ConstraintKind

namespace LinearConstraint

/-- `contradiction`. -/
def contradiction : LinearConstraint sign width Var :=
  ⟨.ofNumber (.ofInt 0), .inequality⟩

/-- The valuation satisfies the constraint. -/
def Holds (ρ : Var → BitInt sign width) (c : LinearConstraint sign width Var) : Prop :=
  c.kind.Holds (c.expr.eval ρ)

end LinearConstraint

/-- `LinearConstraintSystem`. -/
abbrev LinearConstraintSystem (sign : Bool) (width : Nat) (Var : Type) :=
  List (LinearConstraint sign width Var)

/-- What `makeCondition` compares: a variable or a number. -/
inductive LinearOperand (sign : Bool) (width : Nat) (Var : Type) where
  | var (v : Var)
  | num (n : BitInt sign width)

namespace LinearOperand

/-- The expression `makeCondition` builds for an operand. -/
def toExpr : LinearOperand sign width Var → LinearExpression sign width Var
  | var v => .ofVariable v
  | num n => .ofNumber n

/-- The integer an operand stands for. -/
def value (ρ : Var → BitInt sign width) : LinearOperand sign width Var → ℤ
  | var v => (ρ v).toInt
  | num n => n.toInt

/-- The constant of the expression of an operand. -/
def constant : LinearOperand sign width Var → ℤ
  | var _ => 0
  | num n => n.toInt

end LinearOperand

namespace LinearConstraintSystem

variable [DecidableEq Var]

/-- The valuation satisfies all constraints. -/
def Holds (ρ : Var → BitInt sign width) (system : LinearConstraintSystem sign width Var) : Prop :=
  ∀ c ∈ system, c.Holds ρ

/-- `makeConditionSystem`. -/
def makeConditionSystem (op : ConditionType) (x y : LinearExpression sign width Var) :
    LinearConstraintSystem sign width Var :=
  match op with
  | .eq => [⟨x.sub y, .equality⟩]
  | .neq => [⟨x.sub y, .inequality⟩]
  | .gt | .ugt => [⟨(x.neg.addNumber (.ofInt 1)).sub y.neg, .comparison⟩]
  | .ge | .uge => [⟨x.neg.sub y.neg, .comparison⟩]
  | .lt | .ult => [⟨(x.addNumber (.ofInt 1)).sub y, .comparison⟩]
  | .le | .ule => [⟨x.sub y, .comparison⟩]
  | .true | .false | .unknown => []

/-- `makeCondition`. -/
def makeCondition (op : ConditionType) (x y : LinearOperand sign width Var) :
    LinearConstraintSystem sign width Var :=
  makeConditionSystem op x.toExpr y.toExpr

omit [DecidableEq Var] in
/-- The constraint of `withinInterval` for the lower bound; `+oo` fails an assertion. -/
def lowerConstraint (v : Var) :
    Bound sign width → Option (LinearConstraint sign width Var)
  | .finite n => some ⟨(LinearExpression.ofVariable v).neg.subNumber (-n), .comparison⟩
  | .minusInfinity => some ⟨(LinearExpression.ofVariable v).neg.subNumber .minValue, .comparison⟩
  | .plusInfinity => none

omit [DecidableEq Var] in
/-- The constraint of `withinInterval` for the upper bound; `-oo` fails an assertion. -/
def upperConstraint (v : Var) :
    Bound sign width → Option (LinearConstraint sign width Var)
  | .finite n => some ⟨(LinearExpression.ofVariable v).subNumber n, .comparison⟩
  | .plusInfinity => some ⟨(LinearExpression.ofVariable v).subNumber .maxValue, .comparison⟩
  | .minusInfinity => none

omit [DecidableEq Var] in
/-- `withinInterval`. -/
def withinInterval (v : Var) (i : Interval sign width) :
    Option (LinearConstraintSystem sign width Var) :=
  if i.isBottom then some [.contradiction]
  else if i.isConstant then
    some [⟨(LinearExpression.ofVariable v).subNumber i.asConstant, .equality⟩]
  else
    (lowerConstraint v i.lb).bind fun lower =>
      (upperConstraint v i.ub).map fun upper => [lower, upper]

end LinearConstraintSystem

/-! ## The stored numbers are the exact ones, wrapped -/

namespace BitInt

theorem ofValue_add (a b : ℤ) : (ofValue (a + b) : BitInt sign width) = ofValue a + ofValue b :=
  congrArg mk (BitVec.ofInt_add a b)

theorem ofValue_neg (a : ℤ) : (ofValue (-a) : BitInt sign width) = -ofValue a :=
  congrArg mk BitVec.ofInt_neg

theorem ofValue_sub (a b : ℤ) : (ofValue (a - b) : BitInt sign width) = ofValue a - ofValue b := by
  rw [sub_eq_add_neg, ofValue_add, ofValue_neg]
  exact congrArg mk (BitVec.sub_eq_add_neg _ _).symm

theorem ofValue_mul (a b : ℤ) : (ofValue (a * b) : BitInt sign width) = ofValue a * ofValue b :=
  congrArg mk (BitVec.ofInt_mul a b)

theorem ofInt_zero : (ofInt 0 : BitInt sign width) = ofValue 0 := by
  simp [ofInt, ofValue]

theorem ofInt_one : (ofInt 1 : BitInt sign width) = ofValue 1 := by
  simp [ofInt, ofValue]

/-- `-1` is converted to 64 bits first, so that it is cut to at most 64 ones. -/
theorem ofInt_neg_one (hwidth : width ≤ 64) : (ofInt (-1) : BitInt sign width) = ofValue (-1) := by
  refine congrArg mk (BitVec.eq_of_toNat_eq ?_)
  have hdvd : (2 : ℤ) ^ width ∣ 2 ^ 64 := pow_dvd_pow 2 hwidth
  have hmod : ((-1 : ℤ) % 2 ^ 64) % 2 ^ width = -1 % 2 ^ width := Int.emod_emod_of_dvd _ hdvd
  have hnonneg : 0 ≤ (-1 : ℤ) % 2 ^ width := Int.emod_nonneg _ (two_pow_pos width).ne'
  apply Int.ofNat_inj.mp
  rw [BitVec.toNat_ofNat, BitVec.toNat_ofInt]
  push_cast
  rw [Int.toNat_of_nonneg hnonneg]
  exact hmod

theorem ofInt_neg_one_ne_zero (hpos : 0 < width) (hwidth : width ≤ 64) :
    (ofInt (-1) : BitInt sign width) ≠ ofInt 0 := by
  rw [ofInt_neg_one hwidth, ofInt_zero]
  intro h
  have hval := congrArg BitVec.toNat (congrArg inner h)
  simp only [ofValue, BitVec.toNat_ofInt, Nat.cast_pow, Nat.cast_ofNat] at hval
  have hone : (1 : ℤ) < 2 ^ width := one_lt_pow₀ (by norm_num) hpos.ne'
  have hmod : (-1 : ℤ) % 2 ^ width = 2 ^ width - 1 := by
    rw [← Int.add_emod_right, Int.emod_eq_of_lt (by omega) (by omega)]
    ring
  rw [hmod, Int.zero_emod] at hval
  omega

end BitInt

/-- An integer is among the numbers of the width and signedness. -/
def Representable (sign : Bool) (width : Nat) (z : ℤ) : Prop :=
  BitInt.minInt sign width ≤ z ∧ z ≤ BitInt.maxInt sign width

theorem Representable.toInt_ofValue {z : ℤ} (h : Representable sign width z) :
    (BitInt.ofValue z : BitInt sign width).toInt = z := by
  obtain ⟨hlo, hhi⟩ := h
  rw [BitInt.maxInt] at hhi
  rw [BitInt.toInt_ofValue]
  exact Lib.wrap_eq_of_mem hlo (by omega) rfl

theorem representable_toInt (x : BitInt sign width) : Representable sign width x.toInt :=
  ⟨BitInt.minInt_le_toInt x, BitInt.toInt_le_maxInt x⟩

theorem representable_zero : Representable sign width 0 :=
  ⟨Interval.minInt_nonpos, Interval.maxInt_nonneg⟩

namespace LinearOperand

/-- The expression of `s` times an operand. -/
def scaled (s : ℤ) : LinearOperand sign width Var → LinearExpression sign width Var
  | var v => ⟨[(v, .ofValue s)], .ofValue 0⟩
  | num n => ⟨[], .ofValue (s * n.toInt)⟩

theorem toExpr_eq_scaled (x : LinearOperand sign width Var) : x.toExpr = x.scaled 1 := by
  cases x with
  | var v =>
      simp only [toExpr, scaled, LinearExpression.ofVariable, BitInt.ofInt_one, BitInt.ofInt_zero]
  | num n => simp only [toExpr, scaled, LinearExpression.ofNumber, one_mul, BitInt.ofValue_toInt]

theorem neg_toExpr_eq_scaled (hpos : 0 < width) (hwidth : width ≤ 64)
    (x : LinearOperand sign width Var) : x.toExpr.neg = x.scaled (-1) := by
  rw [LinearExpression.neg, LinearExpression.mul,
    if_neg (BitInt.ofInt_neg_one_ne_zero hpos hwidth), BitInt.ofInt_neg_one hwidth]
  cases x with
  | var v =>
      simp only [toExpr, scaled, LinearExpression.ofVariable, List.map_cons, List.map_nil,
        BitInt.ofInt_one, BitInt.ofInt_zero, ← BitInt.ofValue_mul, one_mul, zero_mul]
  | num n =>
      conv_lhs => rw [← BitInt.ofValue_toInt n]
      simp only [toExpr, scaled, LinearExpression.ofNumber, List.map_nil, ← BitInt.ofValue_mul,
        mul_comm]

section Difference

variable [DecidableEq Var]

/-- The terms of `s * (x - y)`; a variable on both sides cancels. -/
def exactTerms (s : ℤ) :
    LinearOperand sign width Var → LinearOperand sign width Var → List (ℤ × Var)
  | var x, var y => if x = y then [] else [(s, x), (-s, y)]
  | var x, num _ => [(s, x)]
  | num _, var y => [(-s, y)]
  | num _, num _ => []

/-- **What the difference of two operands stores**: the exact terms and constant, wrapped. -/
theorem eval_difference (ρ : Var → BitInt sign width) (s t : ℤ)
    (x y : LinearOperand sign width Var) :
    LinearExpression.eval ρ (((x.scaled s).addNumber (.ofValue t)).sub (y.scaled s)) =
      ((exactTerms s x y).map fun (z, v) =>
          (BitInt.ofValue z : BitInt sign width).toInt * (ρ v).toInt).sum +
        (BitInt.ofValue (t + s * (x.constant - y.constant)) : BitInt sign width).toInt := by
  have hcancel : (BitInt.ofValue s + -BitInt.ofValue s : BitInt sign width) = .ofInt 0 := by
    rw [← BitInt.ofValue_neg, ← BitInt.ofValue_add, add_neg_cancel, BitInt.ofInt_zero]
  cases x with
  | var x =>
      cases y with
      | var y =>
          by_cases hxy : x = y
          · subst hxy
            simp [scaled, LinearExpression.addNumber, LinearExpression.sub, LinearExpression.add,
              LinearExpression.subNumber, LinearExpression.eval, exactTerms, constant, hcancel,
              ← BitInt.ofValue_add, ← BitInt.ofValue_sub]
          · have hlookup : List.lookup y [(x, (BitInt.ofValue s : BitInt sign width))] = none := by
              simp [List.lookup, beq_eq_false_iff_ne.mpr (Ne.symm hxy)]
            by_cases hzero : (-BitInt.ofValue s : BitInt sign width) = .ofInt 0
            · have hz : (BitInt.ofValue (-s) : BitInt sign width).toInt = 0 := by
                rw [BitInt.ofValue_neg, hzero, Interval.toInt_ofInt_zero]
              simp [scaled, LinearExpression.addNumber, LinearExpression.sub,
                LinearExpression.add, LinearExpression.subNumber, LinearExpression.eval,
                exactTerms, constant, hlookup, hzero, hxy, hz, ← BitInt.ofValue_add,
                ← BitInt.ofValue_sub]
            · simp [scaled, LinearExpression.addNumber, LinearExpression.sub,
                LinearExpression.add, LinearExpression.subNumber, LinearExpression.eval,
                exactTerms, constant, hlookup, hzero, hxy, BitInt.ofValue_neg,
                ← BitInt.ofValue_add, ← BitInt.ofValue_sub]
              ring
      | num n =>
          simp [scaled, LinearExpression.addNumber, LinearExpression.sub,
            LinearExpression.subNumber, LinearExpression.eval, exactTerms, constant,
            ← BitInt.ofValue_add, ← BitInt.ofValue_sub, sub_eq_add_neg]
  | num m =>
      cases y with
      | var y =>
          by_cases hzero : (-BitInt.ofValue s : BitInt sign width) = .ofInt 0
          · have hz : (BitInt.ofValue (-s) : BitInt sign width).toInt = 0 := by
              rw [BitInt.ofValue_neg, hzero, Interval.toInt_ofInt_zero]
            simp [scaled, LinearExpression.addNumber, LinearExpression.sub, LinearExpression.add,
              LinearExpression.subNumber, LinearExpression.eval, exactTerms, constant, hzero, hz,
              ← BitInt.ofValue_add, ← BitInt.ofValue_sub, add_comm]
          · simp [scaled, LinearExpression.addNumber, LinearExpression.sub, LinearExpression.add,
              LinearExpression.subNumber, LinearExpression.eval, exactTerms, constant, hzero,
              BitInt.ofValue_neg, ← BitInt.ofValue_add, ← BitInt.ofValue_sub, add_comm]
      | num n =>
          simp only [scaled, LinearExpression.addNumber, LinearExpression.sub,
            LinearExpression.subNumber, LinearExpression.eval, exactTerms, constant,
            List.foldl_nil, List.map_nil, List.sum_nil, ← BitInt.ofValue_add,
            ← BitInt.ofValue_sub]
          congr 3
          ring

end Difference

end LinearOperand

/-! ## Conditions -/

namespace LinearConstraintSystem

/-- The relation a comparison operator asks for.  The unsigned operators compare like the signed
ones, as the signedness is that of the numbers; the last three operators compare nothing. -/
def relation : ConditionType → Option (ℤ → ℤ → Prop)
  | .eq => some (· = ·)
  | .neq => some (· ≠ ·)
  | .gt | .ugt => some (· > ·)
  | .ge | .uge => some (· ≥ ·)
  | .lt | .ult => some (· < ·)
  | .le | .ule => some (· ≤ ·)
  | .true | .false | .unknown => none

/-- The operands are negated for the operator. -/
def flips (op : ConditionType) : Bool :=
  op ∈ [.gt, .ugt, .ge, .uge]

/-- `1` is added for the operator. -/
def isStrict (op : ConditionType) : Bool :=
  op ∈ [.gt, .ugt, .lt, .ult]

/-- The kind of constraint the operator becomes. -/
def kind : ConditionType → ConstraintKind
  | .eq => .equality
  | .neq => .inequality
  | _ => .comparison

/-- The sign of the left operand in the normalised constraint. -/
def factor (op : ConditionType) : ℤ :=
  if flips op then -1 else 1

/-- What is added in the normalised constraint. -/
def offset (op : ConditionType) : ℤ :=
  if isStrict op then 1 else 0

/-- The exact constant of the normalised constraint. -/
def exactConstant (op : ConditionType) (x y : LinearOperand sign width Var) : ℤ :=
  offset op + factor op * (x.constant - y.constant)

theorem relation_iff {op : ConditionType} {R : ℤ → ℤ → Prop} (hop : relation op = some R)
    (a b : ℤ) : R a b ↔ (kind op).Holds (factor op * (a - b) + offset op) := by
  cases op <;> simp only [relation, Option.some.injEq, reduceCtorEq] at hop <;>
    subst hop <;>
    simp [kind, ConstraintKind.Holds, factor, offset, flips, isStrict] <;> omega

section Conditions

variable [DecidableEq Var]

/-- `makeCondition` says of every valuation whether the comparison holds. -/
def MeansCondition (op : ConditionType) (x y : LinearOperand sign width Var) : Prop :=
  ∀ R, relation op = some R → ∀ ρ : Var → BitInt sign width,
    (makeCondition op x y).Holds ρ ↔ R (x.value ρ) (y.value ρ)

/-- All numbers of the exact constraint are numbers of the width and signedness.  Where the
operands are negated, `-1` has to survive the conversion to 64 bits as well. -/
def Fits (op : ConditionType) (x y : LinearOperand sign width Var) : Prop :=
  (flips op = true → 0 < width ∧ width ≤ 64) ∧
    (∀ term ∈ LinearOperand.exactTerms (factor op) x y, Representable sign width term.1) ∧
    Representable sign width (exactConstant op x y)

/-- The value of the normalised constraint, as its numbers are stored. -/
def stored (op : ConditionType) (x y : LinearOperand sign width Var)
    (ρ : Var → BitInt sign width) : ℤ :=
  ((LinearOperand.exactTerms (factor op) x y).map fun (z, v) =>
      (BitInt.ofValue z : BitInt sign width).toInt * (ρ v).toInt).sum +
    (BitInt.ofValue (exactConstant op x y) : BitInt sign width).toInt

omit [DecidableEq Var] in
theorem addNumber_zero (e : LinearExpression sign width Var) : e.addNumber (.ofValue 0) = e := by
  rw [LinearExpression.addNumber]
  conv_lhs => rw [← BitInt.ofValue_toInt e.constant, ← BitInt.ofValue_add, add_zero,
    BitInt.ofValue_toInt]

theorem makeCondition_eq {op : ConditionType} {R : ℤ → ℤ → Prop} (hop : relation op = some R)
    (hwidth : flips op = true → 0 < width ∧ width ≤ 64) (x y : LinearOperand sign width Var) :
    makeCondition op x y =
      [⟨((x.scaled (factor op)).addNumber (.ofValue (offset op))).sub (y.scaled (factor op)),
        kind op⟩] := by
  cases op with
  | eq | neq | le | ule =>
      simp [makeCondition, makeConditionSystem, factor, offset, flips, isStrict, kind,
        addNumber_zero, LinearOperand.toExpr_eq_scaled]
  | lt | ult =>
      simp [makeCondition, makeConditionSystem, factor, offset, flips, isStrict, kind,
        BitInt.ofInt_one, LinearOperand.toExpr_eq_scaled]
  | ge | uge =>
      obtain ⟨hpos, hle⟩ := hwidth rfl
      simp [makeCondition, makeConditionSystem, factor, offset, flips, isStrict, kind,
        addNumber_zero, LinearOperand.neg_toExpr_eq_scaled hpos hle]
  | gt | ugt =>
      obtain ⟨hpos, hle⟩ := hwidth rfl
      simp [makeCondition, makeConditionSystem, factor, offset, flips, isStrict, kind,
        BitInt.ofInt_one, LinearOperand.neg_toExpr_eq_scaled hpos hle]
  | true | false | unknown => cases hop

/-- A condition means what it should where the stored numbers say the same as the exact ones. -/
theorem meansCondition_iff_stored {op : ConditionType} {R : ℤ → ℤ → Prop}
    (hop : relation op = some R) (hwidth : flips op = true → 0 < width ∧ width ≤ 64)
    (x y : LinearOperand sign width Var) :
    MeansCondition op x y ↔ ∀ ρ, (kind op).Holds (stored op x y ρ) ↔
      (kind op).Holds (factor op * (x.value ρ - y.value ρ) + offset op) := by
  have hholds : ∀ ρ, (makeCondition op x y).Holds ρ ↔ (kind op).Holds (stored op x y ρ) := by
    intro ρ
    rw [makeCondition_eq hop hwidth, Holds, List.forall_mem_singleton, LinearConstraint.Holds,
      LinearOperand.eval_difference]
    rfl
  constructor
  · intro h ρ
    rw [← hholds, h R hop, relation_iff hop]
  · intro h R' hop' ρ
    rw [hholds, h, relation_iff hop']

/-- The exact terms and constant add up to the difference of the operands. -/
theorem sum_exactTerms (op : ConditionType) (x y : LinearOperand sign width Var)
    (ρ : Var → BitInt sign width) :
    ((LinearOperand.exactTerms (factor op) x y).map fun (z, v) => z * (ρ v).toInt).sum +
        exactConstant op x y =
      factor op * (x.value ρ - y.value ρ) + offset op := by
  cases x with
  | var x =>
      cases y with
      | var y =>
          rw [LinearOperand.exactTerms]
          split
          · next hxy =>
              subst hxy
              simp [exactConstant, LinearOperand.constant, LinearOperand.value]
          · simp [exactConstant, LinearOperand.constant, LinearOperand.value]
            ring
      | num n =>
          simp [LinearOperand.exactTerms, exactConstant, LinearOperand.constant,
            LinearOperand.value]
          ring
  | num m =>
      cases y with
      | var y =>
          simp [LinearOperand.exactTerms, exactConstant, LinearOperand.constant,
            LinearOperand.value]
          ring
      | num n =>
          simp [LinearOperand.exactTerms, exactConstant, LinearOperand.constant,
            LinearOperand.value]
          ring

theorem stored_eq_of_fits {op : ConditionType} {x y : LinearOperand sign width Var}
    (h : Fits op x y) (ρ : Var → BitInt sign width) :
    stored op x y ρ = factor op * (x.value ρ - y.value ρ) + offset op := by
  rw [stored, ← sum_exactTerms, h.2.2.toInt_ofValue]
  congr 2
  refine List.map_congr_left fun (z, v) hterm => ?_
  simp only [(h.2.1 (z, v) hterm).toInt_ofValue]

theorem meansCondition_of_fits {op : ConditionType} {x y : LinearOperand sign width Var}
    (h : Fits op x y) : MeansCondition op x y := by
  intro R hop
  exact (meansCondition_iff_stored hop h.1 x y).mpr
    (fun ρ => by rw [stored_eq_of_fits h]) R hop

/-! ### Where the numbers do not fit -/

omit [DecidableEq Var] in
theorem factor_eq (op : ConditionType) : factor op = 1 ∨ factor op = -1 := by
  rw [factor]
  split
  · exact Or.inr rfl
  · exact Or.inl rfl

omit [DecidableEq Var] in
theorem representable_constant (x : LinearOperand sign width Var) :
    Representable sign width x.constant := by
  cases x with
  | var v => exact representable_zero
  | num n => exact representable_toInt n

omit [DecidableEq Var] in
theorem exactConstant_bounds (op : ConditionType) (x y : LinearOperand sign width Var) :
    -2 ^ width < exactConstant op x y ∧ exactConstant op x y ≤ 2 ^ width := by
  obtain ⟨hxlo, hxhi⟩ := representable_constant x
  obtain ⟨hylo, hyhi⟩ := representable_constant y
  rw [BitInt.maxInt] at hxhi hyhi
  have hoffset : 0 ≤ offset op ∧ offset op ≤ 1 := by
    rw [offset]
    split <;> omega
  rw [exactConstant]
  rcases factor_eq op with h | h <;> rw [h] <;> omega

/-- A constant that wraps has another sign when it is stored. -/
theorem representable_of_wrap_nonpos_iff (hone : 1 ≤ BitInt.maxInt sign width) {k : ℤ}
    (hlo : -2 ^ width < k) (hhi : k ≤ 2 ^ width)
    (h : (BitInt.ofValue k : BitInt sign width).toInt ≤ 0 ↔ k ≤ 0) :
    Representable sign width k := by
  have hmin : BitInt.minInt sign width ≤ 0 := representable_zero.1
  rw [BitInt.toInt_ofValue] at h
  simp only [BitInt.maxInt] at hone
  by_contra hnot
  simp only [Representable, BitInt.maxInt, not_and_or, not_le] at hnot
  rcases hnot with hlow | hhigh
  · rw [Lib.wrap_eq_of_mem (show _ ≤ k + 2 ^ width by omega) (by omega)
      (Int.add_emod_right k _).symm] at h
    omega
  · rw [Lib.wrap_eq_of_mem (show _ ≤ k - 2 ^ width by omega) (by omega)
      (Int.sub_emod_right k _).symm] at h
    omega

/-- Of the terms only the one of the variable that is not zero counts. -/
theorem sum_exactTerms_single {s z : ℤ} {v : Var} {x y : LinearOperand sign width Var}
    (hterm : (z, v) ∈ LinearOperand.exactTerms s x y) (f : ℤ → ℤ) {ρ : Var → BitInt sign width}
    (hρ : ∀ u, u ≠ v → (ρ u).toInt = 0) :
    ((LinearOperand.exactTerms s x y).map fun (z, u) => f z * (ρ u).toInt).sum =
      f z * (ρ v).toInt := by
  cases x with
  | var x =>
      cases y with
      | var y =>
          rw [LinearOperand.exactTerms] at hterm ⊢
          split at hterm
          · exact absurd hterm List.not_mem_nil
          · next hxy =>
              rw [if_neg hxy]
              rcases List.mem_cons.mp hterm with heq | hterm
              · obtain ⟨rfl, rfl⟩ := Prod.mk.inj heq
                simp [hρ y (Ne.symm hxy)]
              · obtain ⟨rfl, rfl⟩ := Prod.mk.inj (List.mem_singleton.mp hterm)
                simp [hρ x hxy]
      | num n =>
          obtain ⟨rfl, rfl⟩ := Prod.mk.inj (List.mem_singleton.mp hterm)
          simp [LinearOperand.exactTerms]
  | num m =>
      cases y with
      | var y =>
          obtain ⟨rfl, rfl⟩ := Prod.mk.inj (List.mem_singleton.mp hterm)
          simp [LinearOperand.exactTerms]
      | num n => exact absurd hterm List.not_mem_nil

theorem coefficient_eq {op : ConditionType} {x y : LinearOperand sign width Var} {term : ℤ × Var}
    (hterm : term ∈ LinearOperand.exactTerms (factor op) x y) : term.1 = 1 ∨ term.1 = -1 := by
  have hfactor := factor_eq op
  cases x with
  | var x =>
      cases y with
      | var y =>
          rw [LinearOperand.exactTerms] at hterm
          split at hterm
          · exact absurd hterm List.not_mem_nil
          · simp only [List.mem_cons, List.not_mem_nil, or_false] at hterm
            rcases hterm with rfl | rfl
            · exact hfactor
            · simp only
              omega
      | num n =>
          obtain rfl := List.mem_singleton.mp hterm
          exact hfactor
  | num m =>
      cases y with
      | var y =>
          obtain rfl := List.mem_singleton.mp hterm
          simp only
          omega
      | num n => exact absurd hterm List.not_mem_nil

omit [DecidableEq Var] in
theorem representable_one (hone : 1 ≤ BitInt.maxInt sign width) : Representable sign width 1 := by
  have hmin : BitInt.minInt sign width ≤ 0 := representable_zero.1
  exact ⟨by omega, hone⟩

omit [DecidableEq Var] in
/-- `-1` is a signed number; read as an unsigned one it is the greatest. -/
theorem neg_one_cases (hone : 1 ≤ BitInt.maxInt sign width) :
    Representable sign width (-1) ∨ BitInt.minInt sign width = 0 ∧
      (BitInt.ofValue (-1) : BitInt sign width).toInt = BitInt.maxInt sign width := by
  have hmin : BitInt.minInt sign width ≤ 0 := representable_zero.1
  rcases Int.lt_or_eq_of_le hmin with hneg | hzero
  · exact Or.inl ⟨by omega, by omega⟩
  · refine Or.inr ⟨hzero, ?_⟩
    simp only [BitInt.maxInt, hzero] at hone
    rw [BitInt.toInt_ofValue]
    exact Lib.wrap_eq_of_mem (by simp only [BitInt.maxInt]; omega)
      (by simp only [BitInt.maxInt]; omega)
      (by rw [BitInt.maxInt, hzero, ← Int.add_emod_right (-1)]; congr 1; ring)

/-- **Comparisons**: the constant has to fit, and so has every coefficient. -/
theorem fits_of_comparison {op : ConditionType} {x y : LinearOperand sign width Var}
    (hone : 1 ≤ BitInt.maxInt sign width)
    (hwidth : flips op = true → 0 < width ∧ width ≤ 64)
    (h : ∀ ρ : Var → BitInt sign width, stored op x y ρ ≤ 0 ↔
      factor op * (x.value ρ - y.value ρ) + offset op ≤ 0) : Fits op x y := by
  obtain ⟨hlo, hhi⟩ := exactConstant_bounds op x y
  have hconst : Representable sign width (exactConstant op x y) := by
    refine representable_of_wrap_nonpos_iff hone hlo hhi ?_
    have hzero : ∀ f : ℤ → ℤ, ((LinearOperand.exactTerms (factor op) x y).map fun (z, _) =>
        f z * (BitInt.ofInt 0 : BitInt sign width).toInt).sum = 0 := by
      intro f
      rw [Interval.toInt_ofInt_zero]
      simp
    have hat := h fun _ => .ofInt 0
    rwa [stored, ← sum_exactTerms, hzero fun z => (BitInt.ofValue z : BitInt sign width).toInt,
      hzero fun z => z, zero_add, zero_add] at hat
  refine ⟨hwidth, fun (z, v) hterm => ?_, hconst⟩
  rcases coefficient_eq hterm with rfl | rfl
  · exact representable_one hone
  rcases neg_one_cases hone with hneg | ⟨hmin, hmax⟩
  · exact hneg
  -- an unsigned `-1`: the variable is the greatest number, everything else is zero
  exfalso
  let ρ : Var → BitInt sign width := fun u =>
    if u = v then .ofValue (BitInt.maxInt sign width) else .ofInt 0
  have hv : (ρ v).toInt = BitInt.maxInt sign width := by
    simp only [ρ, if_true, Interval.toInt_ofValue_maxInt]
  have hothers : ∀ u, u ≠ v → (ρ u).toInt = 0 := by
    intro u hu
    simp only [ρ, if_neg hu, Interval.toInt_ofInt_zero]
  have hat := h ρ
  rw [stored, ← sum_exactTerms,
    sum_exactTerms_single hterm (fun z => (BitInt.ofValue z : BitInt sign width).toInt) hothers,
    sum_exactTerms_single hterm (fun z => z) hothers, hv, hmax, hconst.toInt_ofValue] at hat
  obtain ⟨hklo, hkhi⟩ := hconst
  have hsquare : 0 < BitInt.maxInt sign width * BitInt.maxInt sign width :=
    mul_pos (by omega) (by omega)
  omega

/-- An equation of two numbers comes out right whatever wraps, and so does one of zero and a
variable, whose coefficient only must not vanish. -/
def Cancels (op : ConditionType) (x y : LinearOperand sign width Var) : Prop :=
  (op = .eq ∨ op = .neq) ∧
    match x, y with
    | .num _, .num _ => True
    | .num m, .var _ => m.toInt = 0
    | _, _ => False

theorem meansCondition_iff_zero {op : ConditionType} (hop : op = .eq ∨ op = .neq)
    (x y : LinearOperand sign width Var) :
    MeansCondition op x y ↔
      ∀ ρ, stored op x y ρ = 0 ↔ factor op * (x.value ρ - y.value ρ) + offset op = 0 := by
  rcases hop with rfl | rfl
  · exact meansCondition_iff_stored rfl (fun h => absurd h (by decide)) x y
  · rw [meansCondition_iff_stored rfl (fun h => absurd h (by decide)) x y]
    exact forall_congr' fun ρ => not_iff_not

omit [DecidableEq Var] in
theorem factor_of_eq {op : ConditionType} (hop : op = .eq ∨ op = .neq) :
    factor op = 1 ∧ offset op = 0 ∧ flips op = false := by
  rcases hop with rfl | rfl
  · exact ⟨rfl, rfl, rfl⟩
  · exact ⟨rfl, rfl, rfl⟩

/-- The difference of two numbers is stored as zero only if it is. -/
theorem toInt_ofValue_sub_eq_zero_iff (m n : BitInt sign width) :
    (BitInt.ofValue (m.toInt - n.toInt) : BitInt sign width).toInt = 0 ↔
      m.toInt - n.toInt = 0 := by
  constructor
  · intro h
    have hzero : (BitInt.ofValue (m.toInt - n.toInt) : BitInt sign width) = .ofInt 0 :=
      BitInt.toInt_injective (h.trans Interval.toInt_ofInt_zero.symm)
    have hsum : m = .ofValue (0 + n.toInt) := by
      rw [BitInt.ofValue_add, ← BitInt.ofInt_zero, ← hzero, ← BitInt.ofValue_add,
        sub_add_cancel, BitInt.ofValue_toInt]
    rw [zero_add, BitInt.ofValue_toInt] at hsum
    rw [hsum, sub_self]
  · intro h
    rw [h, ← BitInt.ofInt_zero, Interval.toInt_ofInt_zero]

theorem meansCondition_of_cancels {op : ConditionType} {x y : LinearOperand sign width Var}
    (hone : 1 ≤ BitInt.maxInt sign width) (h : Cancels op x y) : MeansCondition op x y := by
  obtain ⟨hop, h⟩ := h
  obtain ⟨hfactor, hoffset, -⟩ := factor_of_eq hop
  rw [meansCondition_iff_zero hop]
  intro ρ
  simp only [stored, exactConstant, hfactor, hoffset, one_mul, zero_add, add_zero]
  cases x with
  | var x => cases y <;> exact absurd h id
  | num m =>
      cases y with
      | var y =>
          simp only at h
          have hcoeff : (BitInt.ofValue (-1) : BitInt sign width).toInt ≠ 0 := by
            rcases neg_one_cases hone with hneg | ⟨-, hmax⟩
            · rw [hneg.toInt_ofValue]
              omega
            · omega
          simp [LinearOperand.exactTerms, LinearOperand.constant, LinearOperand.value, h,
            ← BitInt.ofInt_zero, Interval.toInt_ofInt_zero, hcoeff]
      | num n =>
          simp only [LinearOperand.exactTerms, LinearOperand.constant, LinearOperand.value,
            List.map_nil, List.sum_nil, zero_add]
          exact toInt_ofValue_sub_eq_zero_iff m n

/-- **Equations**: apart from those that cancel, the numbers have to fit. -/
theorem fits_of_equation {op : ConditionType} (hop : op = .eq ∨ op = .neq)
    {x y : LinearOperand sign width Var} (hone : 1 ≤ BitInt.maxInt sign width)
    (h : ∀ ρ : Var → BitInt sign width, stored op x y ρ = 0 ↔
      factor op * (x.value ρ - y.value ρ) + offset op = 0) : Fits op x y ∨ Cancels op x y := by
  obtain ⟨hfactor, hoffset, hflips⟩ := factor_of_eq hop
  have hwidth : flips op = true → 0 < width ∧ width ≤ 64 := by
    rw [hflips]
    exact nofun
  have hrepOne := @representable_one sign width hone
  have honeValue : (BitInt.ofValue 1 : BitInt sign width).toInt = 1 := hrepOne.toInt_ofValue
  have hrepZero : Representable sign width 0 := representable_zero
  simp only [stored, exactConstant, hfactor, hoffset, one_mul, zero_add, add_zero] at h
  cases x with
  | var x =>
      cases y with
      | var y =>
          left
          refine ⟨hwidth, ?_, by simpa [exactConstant, hfactor, hoffset, LinearOperand.constant]⟩
          rw [hfactor, LinearOperand.exactTerms]
          split
          · exact fun term hterm => absurd hterm List.not_mem_nil
          · next hxy =>
              rcases neg_one_cases hone with hneg | ⟨-, hmax⟩
              · simpa using ⟨hrepOne, hneg⟩
              -- both variables `1`: the stored value is a turn of the numbers
              · exfalso
                have hat := (h fun _ => .ofValue 1).mpr (by simp [LinearOperand.value])
                simp [LinearOperand.exactTerms, hxy, LinearOperand.constant, ← BitInt.ofInt_zero,
                  Interval.toInt_ofInt_zero, honeValue, hmax] at hat
                omega
      | num n =>
          left
          have hat := (h fun _ => n).mpr (by simp [LinearOperand.value])
          simp only [LinearOperand.exactTerms, LinearOperand.constant, List.map_cons, List.map_nil,
            List.sum_cons, List.sum_nil, honeValue, one_mul, add_zero, zero_sub] at hat
          have hstored := representable_toInt (.ofValue (-n.toInt) : BitInt sign width)
          rw [show (BitInt.ofValue (-n.toInt) : BitInt sign width).toInt = -n.toInt by omega]
            at hstored
          refine ⟨hwidth, ?_, by simpa [exactConstant, hfactor, hoffset, LinearOperand.constant]⟩
          simpa [hfactor, LinearOperand.exactTerms] using hrepOne
  | num m =>
      cases y with
      | var y =>
          by_cases hm : m.toInt = 0
          · exact Or.inr ⟨hop, hm⟩
          left
          refine ⟨hwidth, ?_, ?_⟩
          · rcases neg_one_cases hone with hneg | ⟨hmin, hmax⟩
            · simpa [hfactor, LinearOperand.exactTerms] using hneg
            · exfalso
              have hat := (h fun _ => m).mpr (by simp [LinearOperand.value])
              simp only [LinearOperand.exactTerms, LinearOperand.constant, List.map_cons,
                List.map_nil, List.sum_cons, List.sum_nil, hmax, add_zero, sub_zero,
                BitInt.ofValue_toInt] at hat
              have hpos : 0 < m.toInt := by
                have := BitInt.minInt_le_toInt m
                omega
              have hprod : 0 < BitInt.maxInt sign width * m.toInt := mul_pos (by omega) hpos
              omega
          · simpa [exactConstant, hfactor, hoffset, LinearOperand.constant] using
              representable_toInt m
      | num n => exact Or.inr ⟨hop, trivial⟩

/-- **What `makeCondition` means**: the comparison exactly where the numbers of the normalised
constraint fit, or cancel. -/
theorem meansCondition_iff (hone : 1 ≤ BitInt.maxInt sign width) (hle : width ≤ 64)
    (op : ConditionType) (x y : LinearOperand sign width Var) :
    MeansCondition op x y ↔ relation op = none ∨ Fits op x y ∨ Cancels op x y := by
  constructor
  · intro h
    cases hop : relation op with
    | none => exact Or.inl rfl
    | some R =>
        right
        have hwidth : flips op = true → 0 < width ∧ width ≤ 64 := by
          refine fun _ => ⟨Nat.pos_of_ne_zero ?_, hle⟩
          rintro rfl
          cases sign <;> simp [BitInt.maxInt, BitInt.minInt] at hone
        by_cases heq : op = .eq ∨ op = .neq
        · exact fits_of_equation heq hone ((meansCondition_iff_zero heq x y).mp h)
        · left
          rw [not_or] at heq
          have hkind : kind op = .comparison := by
            cases op with
            | eq => exact absurd rfl heq.1
            | neq => exact absurd rfl heq.2
            | _ => rfl
          have hstored := (meansCondition_iff_stored hop hwidth x y).mp h
          rw [hkind] at hstored
          exact fits_of_comparison hone hwidth hstored
  · rintro (hnone | hfits | hcancels)
    · intro R hop
      rw [hnone] at hop
      cases hop
    · exact meansCondition_of_fits hfits
    · exact meansCondition_of_cancels hone hcancels

end Conditions

/-! ## Intervals -/

theorem toInt_minValue (hpos : 0 < width) :
    (BitInt.minValue : BitInt sign width).toInt = BitInt.minInt sign width := by
  cases sign with
  | false => simp [BitInt.minValue, BitInt.toInt, BitInt.minInt]
  | true =>
      rw [BitInt.minInt_true hpos]
      simp [BitInt.minValue, BitInt.toInt, BitVec.toInt_intMin_of_pos hpos]

theorem toInt_maxValue (hpos : 0 < width) :
    (BitInt.maxValue : BitInt sign width).toInt = BitInt.maxInt sign width := by
  obtain ⟨n, rfl⟩ := Nat.exists_eq_add_of_le' hpos
  cases sign with
  | false =>
      simp [BitInt.maxValue, BitInt.toInt, BitInt.maxInt, BitInt.minInt]
  | true =>
      simp only [BitInt.maxValue, BitInt.toInt, if_true, BitVec.toInt_intMax, BitInt.maxInt,
        BitInt.minInt_true hpos, Nat.add_sub_cancel, pow_succ]
      ring

/-- `withinInterval` says of every number whether it belongs to the interval. -/
def MeansInterval (v : Var) (i : Interval.Ptr sign width) : Prop :=
  ∃ system, withinInterval v i.toInterval = some system ∧
    ∀ ρ : Var → BitInt sign width, system.Holds ρ ↔ ρ v ∈ i

theorem eval_variable_sub (ρ : Var → BitInt sign width) (v : Var) (n : BitInt sign width) :
    LinearExpression.eval ρ ((LinearExpression.ofVariable v).subNumber n) =
      (BitInt.ofValue 1 : BitInt sign width).toInt * (ρ v).toInt +
        (BitInt.ofValue (-n.toInt) : BitInt sign width).toInt := by
  simp [LinearExpression.eval, LinearExpression.ofVariable, LinearExpression.subNumber,
    BitInt.ofInt_one, BitInt.sub_eq_ofValue, Interval.toInt_ofInt_zero]

/-- A negated number that is subtracted comes back as it was. -/
theorem eval_neg_variable_sub (hpos : 0 < width) (hwidth : width ≤ 64)
    (ρ : Var → BitInt sign width) (v : Var) (n : BitInt sign width) :
    LinearExpression.eval ρ ((LinearExpression.ofVariable v).neg.subNumber (-n)) =
      (BitInt.ofValue (-1) : BitInt sign width).toInt * (ρ v).toInt + n.toInt := by
  have hneg := LinearOperand.neg_toExpr_eq_scaled hpos hwidth
    (.var v : LinearOperand sign width Var)
  rw [LinearOperand.toExpr] at hneg
  have hconst : (BitInt.ofValue 0 - -n : BitInt sign width) = n := by
    rw [Interval.neg_eq_ofValue, ← BitInt.ofValue_sub, zero_sub, neg_neg, BitInt.ofValue_toInt]
  rw [hneg]
  simp [LinearExpression.eval, LinearOperand.scaled, LinearExpression.subNumber, hconst]

/-- The least number is its own negation. -/
theorem neg_minValue (hpos : 0 < width) : -(BitInt.minValue : BitInt sign width) = .minValue := by
  apply BitInt.toInt_injective
  rw [Interval.neg_eq_ofValue, toInt_minValue hpos, BitInt.toInt_ofValue]
  refine Lib.wrap_eq_of_mem le_rfl (by have := BitInt.two_pow_pos width; omega) ?_
  cases sign with
  | false => simp [BitInt.minInt]
  | true =>
      obtain ⟨n, rfl⟩ := Nat.exists_eq_add_of_le' hpos
      rw [BitInt.minInt_true hpos, Nat.add_sub_cancel, ← Int.sub_emod_right]
      congr 1
      rw [pow_succ]
      ring

/-- The ends of an interval that has members and is not constant. -/
structure Ends (i : Interval.Ptr sign width) : Prop where
  lower : i.lb = .minusInfinity ∨ ∃ n, i.lb = .finite n
  upper : i.ub = .plusInfinity ∨ ∃ n, i.ub = .finite n
  ne : i.lb ≠ i.ub
  le : i.lb.lowest ≤ i.ub.highest

theorem ends_of_not_isConstant {i : Interval.Ptr sign width} (hbottom : i.isBottom = false)
    (hconst : i.isConstant = false) : Ends i := by
  have hle := Interval.isBottom_eq_false_iff.mp hbottom
  have hne : i.lb ≠ i.ub := by simpa [Interval.isConstant] using hconst
  cases hlb : i.lb with
  | plusInfinity =>
      rw [hlb] at hle hne
      cases hub : i.ub with
      | plusInfinity => exact absurd hub.symm hne
      | minusInfinity => rw [hub] at hle; simp [Bound.rank] at hle
      | finite n => rw [hub] at hle; simp [Bound.rank] at hle
  | minusInfinity =>
      cases hub : i.ub with
      | plusInfinity =>
          exact ⟨Or.inl hlb, Or.inl hub, hne, by
            rw [hlb, hub]
            simp only [Bound.lowest, Bound.highest, BitInt.maxInt]
            have := BitInt.two_pow_pos width
            omega⟩
      | minusInfinity => exact absurd (hlb.trans hub.symm) hne
      | finite n =>
          exact ⟨Or.inl hlb, Or.inr ⟨n, hub⟩, hne, by
            rw [hlb, hub]
            exact BitInt.minInt_le_toInt n⟩
  | finite m =>
      cases hub : i.ub with
      | plusInfinity =>
          exact ⟨Or.inr ⟨m, hlb⟩, Or.inl hub, hne, by
            rw [hlb, hub]
            exact BitInt.toInt_le_maxInt m⟩
      | minusInfinity => rw [hlb, hub] at hle; simp [Bound.rank] at hle
      | finite n =>
          refine ⟨Or.inr ⟨m, hlb⟩, Or.inr ⟨n, hub⟩, hne, ?_⟩
          rw [hlb, hub, Bound.rank_finite_le_finite] at hle
          rwa [hlb, hub]

theorem Ends.mem_iff {i : Interval.Ptr sign width} (h : Ends i) (x : BitInt sign width) :
    x ∈ i ↔ i.lb.lowest ≤ x.toInt ∧ x.toInt ≤ i.ub.highest := by
  rw [Interval.mem_iff]
  refine and_congr ?_ ?_
  · rcases h.lower with hlb | ⟨n, hlb⟩
    · rw [hlb]
      exact iff_of_true (by simp [Bound.rank]) (BitInt.minInt_le_toInt x)
    · rw [hlb, Bound.rank_finite_le_finite]
      rfl
  · rcases h.upper with hub | ⟨n, hub⟩
    · rw [hub]
      exact iff_of_true (by simp [Bound.rank]) (BitInt.toInt_le_maxInt x)
    · rw [hub, Bound.rank_finite_le_finite]
      rfl

theorem exists_lowerConstraint (hpos : 0 < width) (hwidth : width ≤ 64) (v : Var)
    {lb : Bound sign width} (hlb : lb = .minusInfinity ∨ ∃ n, lb = .finite n) :
    ∃ e : LinearExpression sign width Var, lowerConstraint v lb = some ⟨e, .comparison⟩ ∧
      ∀ ρ, e.eval ρ =
        (BitInt.ofValue (-1) : BitInt sign width).toInt * (ρ v).toInt + lb.lowest := by
  rcases hlb with rfl | ⟨n, rfl⟩
  · refine ⟨_, rfl, fun ρ => ?_⟩
    rw [← neg_minValue hpos, eval_neg_variable_sub hpos hwidth, toInt_minValue hpos]
    simp only [Bound.lowest]
  · refine ⟨_, rfl, fun ρ => ?_⟩
    rw [eval_neg_variable_sub hpos hwidth]
    simp only [Bound.lowest]

theorem exists_upperConstraint (hpos : 0 < width) (v : Var)
    {ub : Bound sign width} (hub : ub = .plusInfinity ∨ ∃ n, ub = .finite n) :
    ∃ e : LinearExpression sign width Var, upperConstraint v ub = some ⟨e, .comparison⟩ ∧
      ∀ ρ, e.eval ρ = (BitInt.ofValue 1 : BitInt sign width).toInt * (ρ v).toInt +
        (BitInt.ofValue (-ub.highest) : BitInt sign width).toInt := by
  rcases hub with rfl | ⟨n, rfl⟩
  · refine ⟨_, rfl, fun ρ => ?_⟩
    rw [eval_variable_sub, toInt_maxValue hpos]
    simp only [Bound.highest]
  · refine ⟨_, rfl, fun ρ => ?_⟩
    rw [eval_variable_sub]
    simp only [Bound.highest]

/-- Between two different ends the system asks for two comparisons, the lower one with the exact
constant and the upper one with a negated constant. -/
theorem exists_withinInterval (hpos : 0 < width) (hwidth : width ≤ 64) (v : Var)
    {i : Interval.Ptr sign width} (hbottom : i.isBottom = false) (hconst : i.isConstant = false) :
    ∃ system, withinInterval v i.toInterval = some system ∧
      ∀ ρ : Var → BitInt sign width, system.Holds ρ ↔
        (BitInt.ofValue (-1) : BitInt sign width).toInt * (ρ v).toInt + i.lb.lowest ≤ 0 ∧
          (BitInt.ofValue 1 : BitInt sign width).toInt * (ρ v).toInt +
            (BitInt.ofValue (-i.ub.highest) : BitInt sign width).toInt ≤ 0 := by
  have hends := ends_of_not_isConstant hbottom hconst
  obtain ⟨lower, hlowerEq, hlowerEval⟩ := exists_lowerConstraint hpos hwidth v hends.lower
  obtain ⟨upper, hupperEq, hupperEval⟩ := exists_upperConstraint hpos v hends.upper
  refine ⟨[⟨lower, .comparison⟩, ⟨upper, .comparison⟩], ?_, fun ρ => ?_⟩
  · rw [withinInterval, hbottom, hconst, if_neg Bool.false_ne_true, if_neg Bool.false_ne_true,
      hlowerEq, hupperEq]
    rfl
  · simp [Holds, LinearConstraint.Holds, ConstraintKind.Holds, hlowerEval, hupperEval]

theorem meansInterval_of_isBottom (v : Var) {i : Interval.Ptr sign width}
    (hbottom : i.isBottom = true) : MeansInterval v i := by
  refine ⟨[.contradiction], by rw [withinInterval, if_pos hbottom], fun ρ => ?_⟩
  refine iff_of_false (fun h => ?_) fun hmem => ?_
  · have hne := h _ (List.mem_singleton.mpr rfl)
    simp [LinearConstraint.contradiction, LinearConstraint.Holds, ConstraintKind.Holds,
      LinearExpression.ofNumber, LinearExpression.eval, Interval.toInt_ofInt_zero] at hne
  · exact absurd (hbottom.symm.trans hmem.1) nofun

/-- A constant interval is asked for by an equation, whose constant is the negated number. -/
theorem meansInterval_iff_of_constant (hone : 1 ≤ BitInt.maxInt sign width) (v : Var)
    {i : Interval.Ptr sign width} {n : BitInt sign width} (hlb : i.lb = .finite n)
    (hub : i.ub = .finite n) : MeansInterval v i ↔ Representable sign width (-n.toInt) := by
  have hbottom : i.isBottom = false := by
    rw [Interval.isBottom_eq_false_iff, hlb, hub]
  have hconst : i.isConstant = true := by simp [Interval.isConstant, hlb, hub]
  have hsystem : withinInterval v i.toInterval =
      some [⟨(LinearExpression.ofVariable v).subNumber n, .equality⟩] := by
    rw [withinInterval, hbottom, hconst, if_neg Bool.false_ne_true, if_pos rfl,
      Interval.asConstant, hlb, Bound.number]
  have hholds : ∀ ρ : Var → BitInt sign width,
      Holds ρ [⟨(LinearExpression.ofVariable v).subNumber n, .equality⟩] ↔
        (ρ v).toInt + (BitInt.ofValue (-n.toInt) : BitInt sign width).toInt = 0 := by
    intro ρ
    rw [Holds, List.forall_mem_singleton, LinearConstraint.Holds, ConstraintKind.Holds,
      eval_variable_sub, (representable_one hone).toInt_ofValue, one_mul]
  have hmem : ∀ x : BitInt sign width, x ∈ i ↔ x.toInt = n.toInt := by
    intro x
    rw [Interval.mem_iff, hlb, hub, Bound.rank_finite_le_finite, Bound.rank_finite_le_finite]
    omega
  constructor
  · rintro ⟨system, heq, hmeans⟩
    obtain rfl := Option.some.inj (hsystem.symm.trans heq)
    have hat := (hmeans fun _ => n).mpr ((hmem n).mpr rfl)
    rw [hholds] at hat
    have hrep := representable_toInt (.ofValue (-n.toInt) : BitInt sign width)
    rwa [show (BitInt.ofValue (-n.toInt) : BitInt sign width).toInt = -n.toInt by omega] at hrep
  · intro hrep
    refine ⟨_, hsystem, fun ρ => ?_⟩
    rw [hholds, hmem, hrep.toInt_ofValue]
    omega

/-- `number` of an infinite bound is zero, and `[+oo, +oo]` and `[-oo, -oo]` have no members. -/
theorem not_meansInterval_of_infinite (v : Var) {i : Interval.Ptr sign width}
    (hconst : i.isConstant = true) (hfinite : i.lb.isFinite = false) : ¬ MeansInterval v i := by
  rintro ⟨system, hsystem, hmeans⟩
  have hub : i.ub = i.lb := (by simpa [Interval.isConstant] using hconst : i.lb = i.ub).symm
  have hbottom : i.isBottom = false := by
    rw [Interval.isBottom_eq_false_iff, hub]
  have hnumber : i.asConstant = .ofInt 0 := by
    rw [Interval.asConstant]
    cases hlb : i.lb with
    | plusInfinity => simp only [Bound.number]
    | minusInfinity => simp only [Bound.number]
    | finite n => rw [hlb] at hfinite; cases hfinite
  rw [withinInterval, hbottom, hconst, if_neg Bool.false_ne_true, if_pos rfl, hnumber,
    Option.some.injEq] at hsystem
  subst hsystem
  have hzero : Holds (fun _ => .ofInt 0)
      [⟨(LinearExpression.ofVariable v).subNumber (.ofInt 0 : BitInt sign width), .equality⟩] := by
    rw [Holds, List.forall_mem_singleton, LinearConstraint.Holds, ConstraintKind.Holds,
      eval_variable_sub, Interval.toInt_ofInt_zero, neg_zero, ← BitInt.ofInt_zero,
      Interval.toInt_ofInt_zero, mul_zero, zero_add]
  have hmem := Interval.mem_iff.mp ((hmeans fun _ => .ofInt 0).mp hzero)
  rw [hub] at hmem
  cases hlb : i.lb with
  | plusInfinity => rw [hlb] at hmem; simp [Bound.rank] at hmem
  | minusInfinity => rw [hlb] at hmem; simp [Bound.rank] at hmem
  | finite n => rw [hlb] at hfinite; cases hfinite

theorem sign_eq_true_of_representable (hneg : Representable sign width (-1)) : sign = true := by
  cases sign with
  | false => exact absurd hneg.1 (by simp [BitInt.minInt])
  | true => rfl

/-- The upper end is not the least number, whose negation wraps. -/
theorem representable_neg_highest (hneg : Representable sign width (-1)) (hpos : 0 < width)
    {i : Interval.Ptr sign width} (hne : i.ub.highest ≠ BitInt.minInt sign width)
    (hends : Ends i) : Representable sign width (-i.ub.highest) := by
  have hsign : sign = true := sign_eq_true_of_representable hneg
  have hsum := Interval.minInt_add_maxInt hsign hpos
  have hrange : Representable sign width i.ub.highest := by
    rcases hends.upper with hub | ⟨n, hub⟩
    · rw [hub]
      have hpow := BitInt.two_pow_pos width
      simp only [Bound.highest, Representable, BitInt.maxInt]
      omega
    · rw [hub]
      exact representable_toInt n
  obtain ⟨hlo, hhi⟩ := hrange
  constructor <;> omega

/-- What the two constraints of an interval whose ends differ say. -/
theorem meansInterval_iff_bounds (hone : 1 ≤ BitInt.maxInt sign width) (hpos : 0 < width)
    (hwidth : width ≤ 64) (v : Var) {i : Interval.Ptr sign width} (hbottom : i.isBottom = false)
    (hconst : i.isConstant = false) :
    MeansInterval v i ↔ ∀ ρ : Var → BitInt sign width,
      (BitInt.ofValue (-1) : BitInt sign width).toInt * (ρ v).toInt + i.lb.lowest ≤ 0 ∧
          (ρ v).toInt + (BitInt.ofValue (-i.ub.highest) : BitInt sign width).toInt ≤ 0 ↔
        i.lb.lowest ≤ (ρ v).toInt ∧ (ρ v).toInt ≤ i.ub.highest := by
  have hends := ends_of_not_isConstant hbottom hconst
  obtain ⟨system, hsystem, hholds⟩ := exists_withinInterval hpos hwidth v hbottom hconst
  have hval : (BitInt.ofValue 1 : BitInt sign width).toInt = 1 :=
    (representable_one hone).toInt_ofValue
  constructor
  · rintro ⟨system', heq, h⟩ ρ
    obtain rfl := Option.some.inj (hsystem.symm.trans heq)
    rw [← hends.mem_iff, ← h, hholds, hval, one_mul]
  · intro h
    refine ⟨system, hsystem, fun ρ => ?_⟩
    rw [hholds, hends.mem_iff, ← h, hval, one_mul]

/-- Without negative numbers, only an infinite start lies below a zero end. -/
theorem Ends.lb_eq_minusInfinity (hone : 1 ≤ BitInt.maxInt sign width)
    (hmin : BitInt.minInt sign width = 0) {i : Interval.Ptr sign width} (hends : Ends i)
    (hhigh : i.ub.highest = 0) : i.lb = .minusInfinity := by
  rcases hends.lower with hlb | ⟨n, hlb⟩
  · exact hlb
  · exfalso
    have hle := hends.le
    have hlow := BitInt.minInt_le_toInt n
    rcases hends.upper with hub | ⟨m, hub⟩
    · rw [hub] at hhigh
      simp only [Bound.highest] at hhigh
      omega
    · rw [hlb, hub] at hle
      rw [hub] at hhigh
      simp only [Bound.lowest, Bound.highest] at hle hhigh
      have heq : n = m := BitInt.toInt_injective (by omega)
      exact hends.ne (by rw [hlb, hub, heq])

/-- An interval whose ends differ: the negated variable and the negated upper end have to fit, or
the interval is `[-oo, 0]` without negative numbers. -/
theorem meansInterval_iff_of_not_isConstant (hone : 1 ≤ BitInt.maxInt sign width)
    (hpos : 0 < width) (hwidth : width ≤ 64) (v : Var) {i : Interval.Ptr sign width}
    (hbottom : i.isBottom = false) (hconst : i.isConstant = false) :
    MeansInterval v i ↔
      Representable sign width (-1) ∧ i.ub.highest ≠ BitInt.minInt sign width ∨
        BitInt.minInt sign width = 0 ∧ i.lb = .minusInfinity ∧ i.ub.highest = 0 := by
  have hends := ends_of_not_isConstant hbottom hconst
  have hle := hends.le
  have hlow : BitInt.minInt sign width ≤ i.lb.lowest := by
    rcases hends.lower with hlb | ⟨n, hlb⟩
    · rw [hlb]
      simp only [Bound.lowest, le_refl]
    · rw [hlb]
      exact BitInt.minInt_le_toInt n
  obtain ⟨top, htop⟩ : ∃ n : BitInt sign width, n.toInt = i.ub.highest := by
    rcases hends.upper with hub | ⟨n, hub⟩
    · exact ⟨.maxValue, by rw [toInt_maxValue hpos, hub]; simp only [Bound.highest]⟩
    · exact ⟨n, by rw [hub]; simp only [Bound.highest]⟩
  rw [meansInterval_iff_bounds hone hpos hwidth v hbottom hconst]
  rcases neg_one_cases hone with hneg | ⟨hmin, hmax⟩
  · rw [hneg.toInt_ofValue]
    constructor
    · intro h
      refine Or.inl ⟨hneg, fun hleast => ?_⟩
      -- with the least number as upper end the greatest one passes, too
      have hsign : sign = true := sign_eq_true_of_representable hneg
      have hsum := Interval.minInt_add_maxInt hsign hpos
      have hwrap : (BitInt.ofValue (-BitInt.minInt sign width) : BitInt sign width).toInt =
          BitInt.minInt sign width := by
        rw [← toInt_minValue hpos, ← Interval.neg_eq_ofValue, neg_minValue hpos]
      have hat := (h fun _ => .maxValue).mp (by
        rw [toInt_maxValue hpos, hleast, hwrap]
        constructor <;> omega)
      rw [toInt_maxValue hpos] at hat
      omega
    · rintro (⟨-, hne⟩ | ⟨hzero, -⟩)
      · intro ρ
        rw [(representable_neg_highest hneg hpos hne hends).toInt_ofValue]
        omega
      · exact absurd hneg.1 (by omega)
  · rw [hmax]
    constructor
    · intro h
      right
      have hat := ((h fun _ => top).mpr ⟨by rw [htop]; exact hle, htop.le⟩).1
      rw [htop] at hat
      have hnonneg : 0 ≤ i.ub.highest := by omega
      have hhigh : i.ub.highest = 0 := by
        by_contra hne
        have hprod : 0 < BitInt.maxInt sign width * i.ub.highest :=
          mul_pos (by omega) (by omega)
        omega
      exact ⟨hmin, hends.lb_eq_minusInfinity hone hmin hhigh, hhigh⟩
    · rintro (⟨hneg, -⟩ | ⟨-, hlb, hhigh⟩)
      · exact absurd hneg.1 (by omega)
      · intro ρ
        have hrange := BitInt.minInt_le_toInt (ρ v)
        have hlowest : i.lb.lowest = 0 := by
          rw [hlb]
          simp only [Bound.lowest, hmin]
        rw [hhigh, hlowest, neg_zero, ← BitInt.ofInt_zero, Interval.toInt_ofInt_zero]
        constructor
        · rintro ⟨-, hup⟩
          omega
        · rintro ⟨hdown, hup⟩
          have hzero : (ρ v).toInt = 0 := by omega
          rw [hzero, mul_zero]
          omega

/-- The numbers of the constraints for an interval fit: the negated number of a constant interval;
the negated variable and the negated upper end of any other one. -/
def IntervalFits (i : Interval.Ptr sign width) : Prop :=
  i.isBottom = true ∨
    (∃ n, i.lb = .finite n ∧ i.ub = .finite n ∧ Representable sign width 1 ∧
      Representable sign width (-n.toInt)) ∨
    i.isBottom = false ∧ i.isConstant = false ∧ (0 < width ∧ width ≤ 64) ∧
      Representable sign width 1 ∧ Representable sign width (-1) ∧
      i.ub.highest ≠ BitInt.minInt sign width

/-- The one unsigned interval that comes out right although `-1` does not fit. -/
def IntervalVanishes (i : Interval.Ptr sign width) : Prop :=
  BitInt.minInt sign width = 0 ∧ i.isBottom = false ∧ i.lb = .minusInfinity ∧ i.ub.highest = 0

theorem meansInterval_of_fits (v : Var) {i : Interval.Ptr sign width} (h : IntervalFits i) :
    MeansInterval v i := by
  rcases h with hbottom | ⟨n, hlb, hub, hone, hneg⟩ |
    ⟨hbottom, hconst, ⟨hpos, hwidth⟩, hone, hneg, hne⟩
  · exact meansInterval_of_isBottom v hbottom
  · exact (meansInterval_iff_of_constant hone.2 v hlb hub).mpr hneg
  · exact (meansInterval_iff_of_not_isConstant hone.2 hpos hwidth v hbottom hconst).mpr
      (Or.inl ⟨hneg, hne⟩)

/-- **What `withinInterval` means**: membership exactly where its numbers fit, or vanish. -/
theorem meansInterval_iff (hone : 1 ≤ BitInt.maxInt sign width) (hwidth : width ≤ 64) (v : Var)
    (i : Interval.Ptr sign width) : MeansInterval v i ↔ IntervalFits i ∨ IntervalVanishes i := by
  have hpos : 0 < width := by
    refine Nat.pos_of_ne_zero ?_
    rintro rfl
    cases sign <;> simp [BitInt.maxInt, BitInt.minInt] at hone
  have hrepOne := @representable_one sign width hone
  constructor
  · intro h
    cases hbottom : i.isBottom with
    | true => exact Or.inl (Or.inl hbottom)
    | false =>
        cases hconst : i.isConstant with
        | true =>
            have hends : i.lb = i.ub := by simpa [Interval.isConstant] using hconst
            cases hlb : i.lb with
            | finite n =>
                have hub : i.ub = .finite n := hends.symm.trans hlb
                exact Or.inl (Or.inr (Or.inl ⟨n, hlb, hub, hrepOne,
                  (meansInterval_iff_of_constant hone v hlb hub).mp h⟩))
            | plusInfinity =>
                exact absurd h (not_meansInterval_of_infinite v hconst (by rw [hlb]; rfl))
            | minusInfinity =>
                exact absurd h (not_meansInterval_of_infinite v hconst (by rw [hlb]; rfl))
        | false =>
            rcases (meansInterval_iff_of_not_isConstant hone hpos hwidth v hbottom hconst).mp h
              with ⟨hneg, hne⟩ | ⟨hmin, hlb, hub⟩
            · exact Or.inl (Or.inr (Or.inr ⟨hbottom, hconst, ⟨hpos, hwidth⟩, hrepOne, hneg, hne⟩))
            · exact Or.inr ⟨hmin, hbottom, hlb, hub⟩
  · rintro (hfits | ⟨hmin, hbottom, hlb, hub⟩)
    · exact meansInterval_of_fits v hfits
    · have hconst : i.isConstant = false := by
        cases hends : i.isConstant with
        | false => rfl
        | true =>
            have heq : i.lb = i.ub := by simpa [Interval.isConstant] using hends
            rw [← heq, hlb] at hub
            simp only [Bound.highest] at hub
            omega
      exact (meansInterval_iff_of_not_isConstant hone hpos hwidth v hbottom hconst).mpr
        (Or.inr ⟨hmin, hlb, hub⟩)

/-- **Linear constraints mean what they were built from where their numbers fit**, and at the
widths at which `1` and `-1` are what the caster is asked for, nowhere else but for the equations
and the one interval in which the numbers cancel. -/
theorem linearConstraints_mean_iff [DecidableEq Var] :
    (∀ (op : ConditionType) (x y : LinearOperand sign width Var),
      Fits op x y → MeansCondition op x y) ∧
    (∀ (v : Var) (i : Interval.Ptr sign width), IntervalFits i → MeansInterval v i) ∧
    (1 ≤ BitInt.maxInt sign width → width ≤ 64 →
      (∀ (op : ConditionType) (x y : LinearOperand sign width Var),
        MeansCondition op x y ↔ relation op = none ∨ Fits op x y ∨ Cancels op x y) ∧
      ∀ (v : Var) (i : Interval.Ptr sign width),
        MeansInterval v i ↔ IntervalFits i ∨ IntervalVanishes i) :=
  ⟨fun _ _ _ => meansCondition_of_fits, fun v _ => meansInterval_of_fits v,
    fun hone hwidth => ⟨meansCondition_iff hone hwidth, meansInterval_iff hone hwidth⟩⟩

/-- `x <= MIN` of a signed number is satisfied by every number, and `x <= y` of two unsigned ones
only by zeros. -/
theorem not_linearConstraints_mean :
    ¬ MeansCondition .le (.var 0) (.num .minValue : LinearOperand true 8 Nat) ∧
      ¬ MeansCondition .le (.var 0) (.var 1 : LinearOperand false 8 Nat) := by
  constructor
  · intro h
    have hall := (h _ rfl fun _ => ⟨0⟩).mp (by
      intro c hc
      obtain rfl := List.mem_singleton.mp hc
      show (_ : ℤ) ≤ 0
      decide)
    exact absurd hall (by decide)
  · intro h
    have hnone := (h _ rfl fun v => if v = 0 then ⟨0⟩ else ⟨1⟩).mpr (by decide) _
      (List.mem_singleton.mpr rfl)
    exact absurd hnone (by
      show ¬ (_ : ℤ) ≤ 0
      decide)

end LinearConstraintSystem

end Borealis
