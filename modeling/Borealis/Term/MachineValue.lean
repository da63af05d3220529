import Borealis.PredicateAnalysis.DefaultPredicateAnalysis

/-!
# Machine values of terms

What a machine computes for a term over integer and boolean variables and constants.  A term of
integer type stands for as many bits as the type has, a boolean term for one bit.

The machine has two divisions, two remainders and two shifts to the right.  A term has one division
and one remainder: the type of the term tells which one is meant, and the unsigned one is meant by
an unsigned type only.  Where the behaviour of the machine is undefined, and where an operator is
applied to operands of different widths, there is no value.  The logical connectives are defined for
booleans, and so is every operation of the machine that exists for one bit.
-/

namespace Borealis

/-- A number that is cut down twice. -/
theorem setWidth_ofInt_of_le {w m : ℕ} (h : w ≤ m) (value : ℤ) :
    (BitVec.ofInt m value).setWidth w = BitVec.ofInt w value := by
  have hdvd : ((2 ^ w : ℕ) : ℤ) ∣ ((2 ^ m : ℕ) : ℤ) :=
    Int.natCast_dvd_natCast.2 (Nat.pow_dvd_pow 2 h)
  have hnonneg : 0 ≤ value % ((2 ^ m : ℕ) : ℤ) :=
    Int.emod_nonneg _ (Int.natCast_ne_zero.2 (Nat.two_pow_pos m).ne')
  apply BitVec.eq_of_toNat_eq
  calc ((BitVec.ofInt m value).setWidth w).toNat
      = (value % ((2 ^ m : ℕ) : ℤ)).toNat % 2 ^ w := by
        rw [BitVec.toNat_setWidth, BitVec.toNat_ofInt]
    _ = (value % ((2 ^ m : ℕ) : ℤ) % ((2 ^ w : ℕ) : ℤ)).toNat := by
        rw [Int.toNat_emod hnonneg (Int.natCast_nonneg _), Int.toNat_natCast]
    _ = (BitVec.ofInt w value).toNat := by
        rw [Int.emod_emod_of_dvd _ hdvd, BitVec.toNat_ofInt]

/-- Values for the variables of each width, and for the boolean ones. -/
structure MachineValuation where
  bv : (w : ℕ) → String → BitVec w
  bool : String → Bool

/-- The type of an unsigned number. -/
def Ty.isUnsigned : Ty → Bool
  | .integer _ .unsigned | .bool => true
  | _ => false

/-- The machine operator of a term of this type. -/
def ArithType.machineOp (type : Ty) : ArithType → Option BinaryOps
  | .add => some .add
  | .sub => some .sub
  | .mul => some .mul
  | .div => some (if type.isUnsigned then .udiv else .sdiv)
  | .rem => some (if type.isUnsigned then .urem else .srem)
  | .band => some .and
  | .bor => some .or
  | .xor => some .xor
  | .shl => some .shl
  | .ashr => some .ashr
  | .lshr => some .lshr
  | .land | .lor | .implies => none

namespace Meaning

/-- A bit as a boolean. -/
def ofBit (x : BitVec 1) : Meaning := bool (x.toNat = 1)

/-- A binary operator on bit vectors of one width. -/
def machineArith {w : ℕ} (type : Ty) (op : ArithType) (x y : BitVec w) : Option (BitVec w) :=
  (op.machineOp type).bind fun machine => machine.value x y

/-- The machine value of a binary term. -/
def machineBinary (type : Ty) (op : ArithType) : Meaning → Meaning → Option Meaning
  | bool a, bool b =>
    match boolArith op a b with
    | some c => some (bool c)
    | none => (machineArith type op (BitVec.ofBool a) (BitVec.ofBool b)).map ofBit
  | bv m x, bv n y => if h : n = m then (machineArith type op x (h ▸ y)).map (bv m) else none
  | _, _ => none

/-- The machine value of a comparison.  Without `U` it is signed. -/
def machineCmp (op : ConditionType) : Meaning → Meaning → Option Meaning
  | bool a, bool b => (bvCompare op (BitVec.ofBool a) (BitVec.ofBool b)).map bool
  | bv m x, bv n y => if h : n = m then (bvCompare op x (h ▸ y)).map bool else none
  | _, _ => none

/-- The machine value of a unary term. -/
def machineUnary : UnaryArithType → Meaning → Option Meaning
  | .neg, bv w x => some (bv w (-x))
  | .bnot, bv w x => some (bv w (~~~x))
  | .neg, bool a => some (bool a)
  | .bnot, bool a | .not, bool a => some (bool !a)
  | .not, bv _ _ => none

/-- A value in another width. -/
def resize {m : ℕ} (signExtend : Bool) (n : ℕ) (x : BitVec m) : BitVec n :=
  if signExtend then x.signExtend n else x.setWidth n

/-- The machine value of a cast. -/
def machineCast (signExtend : Bool) : Ty → Meaning → Option Meaning
  | .integer n _, bv _ x => some (bv n (resize signExtend n x))
  | .integer n _, bool a => some (bv n (resize signExtend n (BitVec.ofBool a)))
  | .bool, bv _ x => some (ofBit (x.setWidth 1))
  | .bool, bool a => some (bool a)
  | _, _ => none

/-- The width of a bit vector; a boolean has none. -/
def width : Meaning → Option ℕ
  | bool _ => none
  | bv w _ => some w

/-- The value of a selection between two values of one width. -/
def select : Meaning → Meaning → Meaning → Option Meaning
  | bool cnd, tru, fls =>
    if tru.width = fls.width then some (if cnd then tru else fls) else none
  | _, _, _ => none

end Meaning

/-- A variable or a constant of this type. -/
def Ty.machineVariable (σ : MachineValuation) (name : String) : Ty → Option Meaning
  | .integer w _ => if 0 < w then some (.bv w (σ.bv w name)) else none
  | .bool => some (.bool (σ.bool name))
  | _ => none

/-- An integer constant of this type. -/
def Ty.machineConstant (value : ℤ) : Ty → Option Meaning
  | .integer w _ => if 0 < w then some (.bv w (BitVec.ofInt w value)) else none
  | _ => none

/-- The number that a decimal representation stands for. -/
def decimalValue (representation : String) : ℕ :=
  Nat.ofDigitChars 10 representation.toList 0

/-- The machine value of a term of this class from those of its subterms. -/
def TermClass.machine (σ : MachineValuation) :
    TermClass → Ty → String → List (Option Meaning) → Option Meaning
  | .value _, type, name, [] | .argument _ _, type, name, [] => type.machineVariable σ name
  | .opaqueIntConstant v, type, _, [] => type.machineConstant v
  | .opaqueBigIntConstant representation, type, _, [] =>
    type.machineConstant (decimalValue representation)
  | .opaqueBoolConstant b, _, _, [] => some (.bool b)
  | .binary op, type, _, [some lhv, some rhv] => lhv.machineBinary type op rhv
  | .cmp op, _, _, [some lhv, some rhv] => lhv.machineCmp op rhv
  | .unary op, _, _, [some rhv] => rhv.machineUnary op
  | .cast signExtend, type, _, [some rhv] => rhv.machineCast signExtend type
  | .ternary, _, _, [some cnd, some tru, some fls] => cnd.select tru fls
  | _, _, _, _ => none

namespace Term

mutual
/-- The machine value of a term. -/
def machine (σ : MachineValuation) : Term → Option Meaning
  | mk _ cls type name subterms => cls.machine σ type name (machines σ subterms)

/-- The machine values of the subterms. -/
def machines (σ : MachineValuation) : List Term → List (Option Meaning)
  | [] => []
  | t :: ts => machine σ t :: machines σ ts
end

end Term

end Borealis
