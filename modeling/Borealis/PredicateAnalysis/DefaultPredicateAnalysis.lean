import Borealis.Lib.SignedDivision
import Borealis.PredicateAnalysis.Instructions
import Borealis.Term.Predicate
import Borealis.Term.TermFactory

/-!
# Predicates of instructions

`DefaultPredicateAnalysis` makes an equality of an integer instruction: its result equals a term over
its operands.  Terms have one operator for both divisions and one for both remainders, and a value of
type `i1` is a boolean term, for which only some operators exist.

A term is read with its own operators: a division or remainder is signed, as is a comparison without
`U`, and a shift to the right is arithmetic or logical.  A term for which an operator does not exist
has no reading.

## Strategy

A straight-line sequence in static single assignment form keeps what its instructions read and
compute, so that its predicates can be checked at the end, one by one.  For one instruction the
operators agree except for the unsigned division and remainder, where `Lib.sdiv_eq_udiv_iff` and
`Lib.srem_eq_umod_iff` tell when they do, and for what boolean terms cannot express.
-/

namespace Borealis

/-! ## Terms for operands -/

/-- `TypeFactory::cast` for an integer type. -/
def Ty.ofWidth (w : Nat) : Ty := if w = 1 then .bool else .integer w .unknown

/-- `getLocalValueTerm` of an instruction. -/
def getLocalValueTerm (w : Nat) (name : String) : Term :=
  .mk 0 (.value false) (Ty.ofWidth w) name []

/-- `getValueTerm`. -/
def IntOperand.getValueTerm {w : Nat} : IntOperand w → Term
  | argument idx name => .mk 0 (.argument idx .any) (Ty.ofWidth w) name []
  | instruction name => getLocalValueTerm w name
  | constant value =>
    if w = 1 then TermFactory.getBooleanTerm (value.toNat = 1)
    else if 64 < w then
      .mk 0 (.opaqueBigIntConstant (toString value.toNat)) (.integer w .unknown)
        (toString value.toNat) []
    else TermFactory.getIntTerm (value.setWidth 64).toInt (.integer w .unknown)

/-! ## The visitors -/

/-- `arithType`. -/
def arithType : BinaryOps → ArithType
  | .add => .add
  | .sub => .sub
  | .mul => .mul
  | .udiv => .div
  | .sdiv => .div
  | .urem => .rem
  | .srem => .rem
  | .shl => .shl
  | .lshr => .lshr
  | .ashr => .ashr
  | .and => .band
  | .or => .bor
  | .xor => .xor

/-- `conditionType`. -/
def conditionType : CmpPredicate → ConditionType
  | .eq => .eq
  | .ne => .neq
  | .sge => .ge
  | .uge => .uge
  | .sgt => .gt
  | .ugt => .ugt
  | .sle => .le
  | .ule => .ule
  | .slt => .lt
  | .ult => .ult

namespace DefaultPredicateAnalysis

variable (FN : TermFactory)

/-- `visitBinaryOperator`. -/
def visitBinaryOperator {w : Nat} (result : String) (op : BinaryOps) (op1 op2 : IntOperand w) :
    Predicate :=
  .equality .invariant (getLocalValueTerm w result)
    (FN.getBinaryTerm (arithType op) op1.getValueTerm op2.getValueTerm)

/-- `visitCmpInst`. -/
def visitCmpInst {w : Nat} (result : String) (predicate : CmpPredicate) (op1 op2 : IntOperand w) :
    Predicate :=
  .equality .invariant (getLocalValueTerm 1 result)
    (FN.getCmpTerm (conditionType predicate) op1.getValueTerm op2.getValueTerm)

/-- `visitCastInst`, from width `m` to width `n`. -/
def visitCastInst {m : Nat} (n : Nat) (result : String) (signExtend : Bool) (op : IntOperand m) :
    Predicate :=
  let lhvt := getLocalValueTerm n result
  let rhvt := op.getValueTerm
  if n = 1 ∧ m ≠ 1 then
    .equality .invariant lhvt (FN.getCmpTerm .neq rhvt (TermFactory.getIntTerm 0 (Ty.ofWidth m)))
  else if n ≠ 1 ∧ m = 1 then
    .equality .invariant (FN.getCmpTerm .neq lhvt (TermFactory.getIntTerm 0 (Ty.ofWidth n))) rhvt
  else .equality .invariant lhvt (FN.getCastTerm (Ty.ofWidth n) signExtend rhvt)

/-- `visitSelectInst`. -/
def visitSelectInst {w : Nat} (result : String) (cnd : IntOperand 1) (tru fls : IntOperand w) :
    Predicate :=
  .equality .invariant (getLocalValueTerm w result)
    (FN.getTernaryTerm cnd.getValueTerm tru.getValueTerm fls.getValueTerm)

/-- `visitPHINode`: the predicate of the edge from a block. -/
def visitPHINode {w : Nat} (result : String) (incoming : String → IntOperand w)
    (source : String) : Predicate :=
  .equality .state (getLocalValueTerm w result) (incoming source).getValueTerm

/-- The predicate of an instruction, on the edge that control came over. -/
def visit (source : String) : {n : Nat} → IntInstruction n → Predicate
  | _, .binary result op op1 op2 => visitBinaryOperator FN result op op1 op2
  | _, .icmp result predicate op1 op2 => visitCmpInst FN result predicate op1 op2
  | n, .trunc result _ op | n, .zext result _ op => visitCastInst FN n result false op
  | n, .sext result _ op => visitCastInst FN n result true op
  | _, .select result cnd tru fls => visitSelectInst FN result cnd tru fls
  | _, .phi result incoming => visitPHINode result incoming source

end DefaultPredicateAnalysis

/-! ## Reading of terms -/

/-- What a term of integer type stands for. -/
inductive Meaning where
  | bool (b : Bool)
  | bv (w : Nat) (value : BitVec w)
deriving DecidableEq

namespace Meaning

/-- The meaning of a machine value. -/
def ofValue {w : Nat} (value : BitVec w) : Meaning :=
  if w = 1 then bool (value.toNat = 1) else bv w value

/-- The operators on booleans. -/
def boolArith : ArithType → Bool → Bool → Option Bool
  | .band, a, b | .land, a, b => some (a && b)
  | .bor, a, b | .lor, a, b => some (a || b)
  | .xor, a, b => some (a ^^ b)
  | .implies, a, b => some (!a || b)
  | _, _, _ => none

/-- The operators on bit vectors. -/
def bvArith {w : Nat} : ArithType → BitVec w → BitVec w → Option (BitVec w)
  | .add, x, y => some (x + y)
  | .sub, x, y => some (x - y)
  | .mul, x, y => some (x * y)
  | .div, x, y => some (x.sdiv y)
  | .rem, x, y => some (x.srem y)
  | .band, x, y => some (x &&& y)
  | .bor, x, y => some (x ||| y)
  | .xor, x, y => some (x ^^^ y)
  | .shl, x, y => some (x <<< y)
  | .ashr, x, y => some (x.sshiftRight' y)
  | .lshr, x, y => some (x >>> y)
  | .land, _, _ | .lor, _, _ | .implies, _, _ => none

/-- A binary term. -/
def arith (op : ArithType) : Meaning → Meaning → Option Meaning
  | bool a, bool b => (boolArith op a b).map bool
  | bv m x, bv n y => if h : n = m then (bvArith op x (h ▸ y)).map (bv m) else none
  | _, _ => none

/-- The comparisons of bit vectors. -/
def bvCompare {w : Nat} : ConditionType → BitVec w → BitVec w → Option Bool
  | .eq, x, y => some (decide (x = y))
  | .neq, x, y => some (decide (x ≠ y))
  | .gt, x, y => some (y.slt x)
  | .ge, x, y => some (y.sle x)
  | .lt, x, y => some (x.slt y)
  | .le, x, y => some (x.sle y)
  | .ugt, x, y => some (y.ult x)
  | .uge, x, y => some (y.ule x)
  | .ult, x, y => some (x.ult y)
  | .ule, x, y => some (x.ule y)
  | .true, _, _ => some true
  | .false, _, _ => some false
  | .unknown, _, _ => none

/-- A comparison term. -/
def compare (op : ConditionType) : Meaning → Meaning → Option Meaning
  | bool a, bool b =>
    match op with
    | .eq => some (bool (decide (a = b)))
    | .neq => some (bool (decide (a ≠ b)))
    | .true => some (bool true)
    | .false => some (bool false)
    | _ => none
  | bv m x, bv n y => if h : n = m then (bvCompare op x (h ▸ y)).map bool else none
  | _, _ => none

end Meaning

/-- The meaning of a term of this class from those of its subterms. -/
def TermClass.meaning (σ : MachineState) :
    TermClass → Ty → String → List (Option Meaning) → Option Meaning
  | .value _, .integer w _, name, _ | .argument _ _, .integer w _, name, _ =>
    some (.bv w (σ w name))
  | .value _, .bool, name, _ | .argument _ _, .bool, name, _ =>
    some (.bool ((σ 1 name).toNat = 1))
  | .opaqueIntConstant v, .integer w _, _, _ => some (.bv w (BitVec.ofInt w v))
  | .opaqueBigIntConstant representation, .integer w _, _, _ =>
    some (.bv w (BitVec.ofNat w (Nat.ofDigitChars 10 representation.toList 0)))
  | .opaqueBoolConstant b, _, _, _ => some (.bool b)
  | .binary op, _, _, [some lhv, some rhv] => lhv.arith op rhv
  | .cmp op, _, _, [some lhv, some rhv] => lhv.compare op rhv
  | .cast signExtend, .integer w _, _, [some (.bv _ v)] =>
    some (.bv w (if signExtend then v.signExtend w else v.setWidth w))
  | .ternary, _, _, [some (.bool cnd), some tru, some fls] => some (if cnd then tru else fls)
  | _, _, _, _ => none

namespace Term

mutual
/-- The meaning of a term under the values of the variables. -/
def meaning (σ : MachineState) : Term → Option Meaning
  | mk _ cls type name subterms => cls.meaning σ type name (meanings σ subterms)

/-- The meanings of the subterms. -/
def meanings (σ : MachineState) : List Term → List (Option Meaning)
  | [] => []
  | t :: ts => meaning σ t :: meanings σ ts
end

end Term

/-- The two sides of an equality have a meaning, and the same. -/
def Predicate.Satisfied (σ : MachineState) : Predicate → Prop
  | .equality _ lhv rhv => ∃ m, lhv.meaning σ = some m ∧ rhv.meaning σ = some m
  | _ => False

end Borealis
