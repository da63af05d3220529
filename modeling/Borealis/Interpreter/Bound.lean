import Borealis.Interpreter.BitInt
import Mathlib

/-!
# Interval bounds

`Bound<Number>` of `Interpreter/Domain/Numerical/Bound.hpp` over machine integers.  A bound is
`+oo`, `-oo` or a number; the source keeps two flags and a value that its constructors reset to
zero for an infinite bound, so `number` of an infinite bound is zero.

`rank` orders the bounds as the integers they stand for, with `-oo` below and `+oo` above; the
comparisons of the source are the order of the ranks.
-/

namespace Borealis

/-- `Bound<BitInt<sign>>`. -/
inductive Bound (sign : Bool) (width : Nat) where
  | plusInfinity
  | minusInfinity
  | finite (value : BitInt sign width)
deriving DecidableEq, Repr

namespace Bound

variable {sign : Bool} {width : Nat}

/-- `Bound(caster, n)`. -/
def ofInt (n : ℤ) : Bound sign width :=
  finite (BitInt.ofInt n)

/-- `number`. -/
def number : Bound sign width → BitInt sign width
  | finite value => value
  | _ => BitInt.ofInt 0

/-- `isFinite`. -/
def isFinite : Bound sign width → Bool
  | finite _ => true
  | _ => false

/-- `isZero`. -/
def isZero : Bound sign width → Bool
  | finite value => value == BitInt.ofInt 0
  | _ => false

/-- `operator-()`. -/
def neg : Bound sign width → Bound sign width
  | plusInfinity => minusInfinity
  | minusInfinity => plusInfinity
  | finite value => finite (-value)

/-- `operator+=`. -/
def add : Bound sign width → Bound sign width → Bound sign width
  | finite x, finite y => finite (x + y)
  | finite _, other => other
  | this, _ => this

/-- `operator-=`. -/
def sub : Bound sign width → Bound sign width → Bound sign width
  | finite x, finite y => finite (x - y)
  | finite _, other => other.neg
  | this, _ => this

/-- `operator*=`. -/
def mul : Bound sign width → Bound sign width → Bound sign width
  | finite x, finite y => finite (x * y)
  | finite _, other => other
  | this, _ => this

instance : Neg (Bound sign width) := ⟨neg⟩
instance : Add (Bound sign width) := ⟨add⟩
instance : Sub (Bound sign width) := ⟨sub⟩
instance : Mul (Bound sign width) := ⟨mul⟩

@[simp] theorem finite_add_finite (x y : BitInt sign width) :
    finite x + finite y = finite (x + y) := rfl
@[simp] theorem finite_add_plusInfinity (x : BitInt sign width) :
    finite x + plusInfinity = plusInfinity := rfl
@[simp] theorem finite_add_minusInfinity (x : BitInt sign width) :
    finite x + minusInfinity = minusInfinity := rfl
@[simp] theorem plusInfinity_add (b : Bound sign width) : plusInfinity + b = plusInfinity := rfl
@[simp] theorem minusInfinity_add (b : Bound sign width) : minusInfinity + b = minusInfinity := rfl

@[simp] theorem finite_sub_finite (x y : BitInt sign width) :
    finite x - finite y = finite (x - y) := rfl
@[simp] theorem finite_sub_plusInfinity (x : BitInt sign width) :
    finite x - plusInfinity = minusInfinity := rfl
@[simp] theorem finite_sub_minusInfinity (x : BitInt sign width) :
    finite x - minusInfinity = plusInfinity := rfl
@[simp] theorem plusInfinity_sub (b : Bound sign width) : plusInfinity - b = plusInfinity := rfl
@[simp] theorem minusInfinity_sub (b : Bound sign width) : minusInfinity - b = minusInfinity := rfl

@[simp] theorem finite_mul_finite (x y : BitInt sign width) :
    finite x * finite y = finite (x * y) := rfl
@[simp] theorem finite_mul_plusInfinity (x : BitInt sign width) :
    finite x * plusInfinity = plusInfinity := rfl
@[simp] theorem finite_mul_minusInfinity (x : BitInt sign width) :
    finite x * minusInfinity = minusInfinity := rfl
@[simp] theorem plusInfinity_mul (b : Bound sign width) : plusInfinity * b = plusInfinity := rfl
@[simp] theorem minusInfinity_mul (b : Bound sign width) : minusInfinity * b = minusInfinity := rfl

/-- `operator/=`; division by zero is unreachable in the source. -/
def div (this other : Bound sign width) : Option (Bound sign width) :=
  if other.isZero then none
  else
    match this, other with
    | finite x, finite y => (x.div y).map finite
    | finite _, _ => some (ofInt 0)
    | this, finite y => some (if y.geq (BitInt.ofInt 0) then this else -this)
    | this, _ => some this

/-- `leq`. -/
def leq : Bound sign width → Bound sign width → Bool
  | _, plusInfinity => true
  | plusInfinity, _ => false
  | this, minusInfinity => this == minusInfinity
  | minusInfinity, _ => true
  | finite x, finite y => x.leq y

/-- `geq`. -/
def geq : Bound sign width → Bound sign width → Bool
  | this, plusInfinity => this == plusInfinity
  | plusInfinity, _ => true
  | _, minusInfinity => true
  | minusInfinity, other => other == minusInfinity
  | finite x, finite y => x.geq y

/-- `operator<`. -/
def lt (this other : Bound sign width) : Bool :=
  !this.geq other

/-- `operator>`. -/
def gt (this other : Bound sign width) : Bool :=
  !this.leq other

/-- `isPositive`. -/
def isPositive : Bound sign width → Bool
  | plusInfinity => true
  | minusInfinity => false
  | finite value => !value.leq (BitInt.ofInt 0)

/-- `abs`. -/
def abs (b : Bound sign width) : Bound sign width :=
  if b.geq (ofInt 0) then b else -b

/-- `operator<<`; the shift must not be negative. -/
def shl (lhv rhv : Bound sign width) : Option (Bound sign width) :=
  if !rhv.geq (ofInt 0) then none
  else if lhv.isZero || !lhv.isFinite then some lhv
  else if !rhv.isFinite then some (if lhv.isPositive then plusInfinity else minusInfinity)
  else some (finite (lhv.number.shl rhv.number))

/-- `operator>>`; the shift must not be negative. -/
def ashr (lhv rhv : Bound sign width) : Option (Bound sign width) :=
  if !rhv.geq (ofInt 0) then none
  else if lhv.isZero || !lhv.isFinite then some lhv
  else if !rhv.isFinite then some (if lhv.isPositive then plusInfinity else minusInfinity)
  else some (finite (lhv.number.ashr rhv.number))

/-- `lshr`; the shift must not be negative.  Finite numbers are shifted with `>>`, the
arithmetic shift. -/
def lshr (lhv rhv : Bound sign width) : Option (Bound sign width) :=
  if !rhv.geq (ofInt 0) then none
  else if lhv.isZero || !lhv.isFinite then some lhv
  else if !rhv.isFinite then some (ofInt 0)
  else some (finite (lhv.number.ashr rhv.number))

/-- `util::min` of two bounds. -/
def min (h t : Bound sign width) : Bound sign width :=
  if h.lt t then h else t

/-- `util::max` of two bounds. -/
def max (h t : Bound sign width) : Bound sign width :=
  if h.lt t then t else h

/-- `util::min` of four bounds. -/
def min₄ (a b c d : Bound sign width) : Bound sign width :=
  a.min (b.min (c.min d))

/-- `util::max` of four bounds. -/
def max₄ (a b c d : Bound sign width) : Bound sign width :=
  a.max (b.max (c.max d))

/-! ## The order of bounds -/

/-- The place of a bound among the extended integers. -/
def rank : Bound sign width → WithBot (WithTop ℤ)
  | plusInfinity => ((⊤ : WithTop ℤ) : WithBot (WithTop ℤ))
  | minusInfinity => ⊥
  | finite value => ((value.toInt : WithTop ℤ) : WithBot (WithTop ℤ))

@[simp] theorem rank_finite_le_finite {x y : BitInt sign width} :
    (finite x).rank ≤ (finite y).rank ↔ x.toInt ≤ y.toInt := by
  simp [rank]

theorem rank_le_plusInfinity (b : Bound sign width) :
    b.rank ≤ (plusInfinity : Bound sign width).rank := by
  cases b <;> simp [rank]

theorem leq_iff {a b : Bound sign width} : a.leq b = true ↔ a.rank ≤ b.rank := by
  cases a <;> cases b <;> simp [leq, rank, BitInt.leq_iff]

theorem geq_iff {a b : Bound sign width} : a.geq b = true ↔ b.rank ≤ a.rank := by
  cases a <;> cases b <;> simp [geq, rank, BitInt.geq_iff]

theorem rank_min (a b : Bound sign width) : (a.min b).rank = Min.min a.rank b.rank := by
  unfold min lt
  by_cases h : a.geq b = true
  · simp [h, geq_iff.mp h]
  · have : a.rank ≤ b.rank := (lt_of_not_ge fun hge => h (geq_iff.mpr hge)).le
    simp [h, this]

theorem rank_max (a b : Bound sign width) : (a.max b).rank = Max.max a.rank b.rank := by
  unfold max lt
  by_cases h : a.geq b = true
  · simp [h, geq_iff.mp h]
  · have : a.rank ≤ b.rank := (lt_of_not_ge fun hge => h (geq_iff.mpr hge)).le
    simp [h, this]

end Bound

end Borealis
