import Borealis.Lib.Window
import Mathlib.Data.BitVec

/-!
# Machine integers

`BitInt<sign>` of `Interpreter/Domain/Numerical/Number.hpp`: an `llvm::APInt` read as a signed or
as an unsigned integer.  Division and remainder by zero are assertion failures of `APInt` and
return `none`.

`toInt` is the integer a `BitInt` stands for.  It lies in the window of `2^width` integers that
starts at `minInt`, and the operations are the integer ones followed by `wrap` to that window.
-/

namespace Borealis

open Lib

/-- `BitInt<sign>` of width `width`. -/
structure BitInt (sign : Bool) (width : Nat) where
  inner : BitVec width
deriving DecidableEq, Repr

namespace BitInt

variable {sign : Bool} {width : Nat}

/-- `BitInt(size_t width, unsigned long long n)` for an `int` argument: `n` is converted to 64
bits first and then truncated or extended with zeros. -/
def ofInt (n : ℤ) : BitInt sign width :=
  ⟨BitVec.ofNat width (n % 2 ^ 64).toNat⟩

/-- `Adapter::minValue`. -/
def minValue : BitInt sign width :=
  ⟨if sign then BitVec.intMin width else 0⟩

/-- `Adapter::maxValue`. -/
def maxValue : BitInt sign width :=
  ⟨if sign then BitVec.intMax width else BitVec.allOnes width⟩

instance : Neg (BitInt sign width) := ⟨fun x => ⟨-x.inner⟩⟩
instance : Add (BitInt sign width) := ⟨fun x y => ⟨x.inner + y.inner⟩⟩
instance : Sub (BitInt sign width) := ⟨fun x y => ⟨x.inner - y.inner⟩⟩
instance : Mul (BitInt sign width) := ⟨fun x y => ⟨x.inner * y.inner⟩⟩
instance : AndOp (BitInt sign width) := ⟨fun x y => ⟨x.inner &&& y.inner⟩⟩
instance : OrOp (BitInt sign width) := ⟨fun x y => ⟨x.inner ||| y.inner⟩⟩
instance : XorOp (BitInt sign width) := ⟨fun x y => ⟨x.inner ^^^ y.inner⟩⟩

/-- `operator/`. -/
def div (x y : BitInt sign width) : Option (BitInt sign width) :=
  if y.inner = 0 then none
  else some ⟨if sign then x.inner.sdiv y.inner else x.inner / y.inner⟩

/-- `operator%`. -/
def rem (x y : BitInt sign width) : Option (BitInt sign width) :=
  if y.inner = 0 then none
  else some ⟨if sign then x.inner.srem y.inner else x.inner % y.inner⟩

/-- `operator<<`. -/
def shl (x y : BitInt sign width) : BitInt sign width :=
  ⟨x.inner <<< y.inner⟩

/-- `operator>>`, an arithmetic shift for both signednesses. -/
def ashr (x y : BitInt sign width) : BitInt sign width :=
  ⟨x.inner.sshiftRight' y.inner⟩

/-- `lshr`. -/
def lshr (x y : BitInt sign width) : BitInt sign width :=
  ⟨x.inner >>> y.inner⟩

/-- `leq`. -/
def leq (x y : BitInt sign width) : Bool :=
  if sign then x.inner.sle y.inner else x.inner.ule y.inner

/-- `geq`. -/
def geq (x y : BitInt sign width) : Bool :=
  y.leq x

/-! ## The integer a `BitInt` stands for -/

/-- The value of a machine integer. -/
def toInt (x : BitInt sign width) : ℤ :=
  if sign then x.inner.toInt else x.inner.toNat

/-- The least value of the width and signedness. -/
def minInt (sign : Bool) (width : Nat) : ℤ :=
  if sign then -(2 ^ width / 2) else 0

/-- The greatest value of the width and signedness. -/
def maxInt (sign : Bool) (width : Nat) : ℤ :=
  minInt sign width + 2 ^ width - 1

/-- The machine integer congruent to `z`. -/
def ofValue (z : ℤ) : BitInt sign width :=
  ⟨BitVec.ofInt width z⟩

theorem two_pow_pos (width : Nat) : (0 : ℤ) < 2 ^ width := by positivity

theorem minInt_le_toInt (x : BitInt sign width) : minInt sign width ≤ x.toInt := by
  cases sign
  · simp [minInt, toInt]
  · have := BitVec.le_two_mul_toInt (x := x.inner)
    simp only [minInt, toInt, if_true]
    omega

theorem toInt_lt (x : BitInt sign width) : x.toInt < minInt sign width + 2 ^ width := by
  cases sign
  · have := x.inner.isLt
    simp only [minInt, toInt, Bool.false_eq_true, if_false, zero_add]
    exact_mod_cast this
  · have := BitVec.two_mul_toInt_lt (x := x.inner)
    simp only [minInt, toInt, if_true]
    have heven : width = 0 ∨ (2 : ℤ) ^ width = 2 * 2 ^ (width - 1) := by
      cases width with
      | zero => exact Or.inl rfl
      | succ n => exact Or.inr (by simp [pow_succ, mul_comm])
    rcases heven with rfl | heven
    · omega
    · omega

theorem toInt_le_maxInt (x : BitInt sign width) : x.toInt ≤ maxInt sign width := by
  have := toInt_lt x
  simp only [maxInt]
  omega

theorem toInt_emod (x : BitInt sign width) : x.toInt % 2 ^ width = x.inner.toNat := by
  have hnat : (x.inner.toNat : ℤ) % 2 ^ width = x.inner.toNat :=
    Int.emod_eq_of_lt (by positivity) (by exact_mod_cast x.inner.isLt)
  cases sign
  · simpa [toInt] using hnat
  · simp only [toInt, if_true, BitVec.toInt_eq_toNat_cond]
    split
    · exact hnat
    · push_cast
      rw [Int.sub_emod_right, hnat]

theorem toInt_ofValue (z : ℤ) :
    (ofValue z : BitInt sign width).toInt = wrap (minInt sign width) (2 ^ width) z := by
  refine (wrap_eq_of_mem (minInt_le_toInt _) (toInt_lt _) ?_).symm
  have hnonneg : 0 ≤ z % 2 ^ width := Int.emod_nonneg z (two_pow_pos width).ne'
  rw [toInt_emod, ofValue, BitVec.toNat_ofInt]
  push_cast
  exact (Int.toNat_of_nonneg hnonneg).symm

theorem ofValue_toInt (x : BitInt sign width) : ofValue x.toInt = x := by
  cases sign
  · simp [ofValue, toInt]
  · simp [ofValue, toInt]

theorem toInt_injective : Function.Injective (toInt : BitInt sign width → ℤ) := by
  intro x y h
  rw [← ofValue_toInt x, h, ofValue_toInt]

/-- Every integer of the window is the value of a machine integer. -/
theorem exists_toInt_eq {z : ℤ} (hlo : minInt sign width ≤ z) (hhi : z ≤ maxInt sign width) :
    ∃ x : BitInt sign width, x.toInt = z := by
  refine ⟨ofValue z, ?_⟩
  rw [toInt_ofValue]
  exact wrap_eq_of_mem hlo (by simp only [maxInt] at hhi; linarith) rfl

theorem add_eq_ofValue (x y : BitInt sign width) : x + y = ofValue (x.toInt + y.toInt) := by
  conv_lhs => rw [← ofValue_toInt x, ← ofValue_toInt y]
  exact congrArg mk (BitVec.ofInt_add _ _).symm

theorem sub_eq_ofValue (x y : BitInt sign width) : x - y = ofValue (x.toInt - y.toInt) := by
  conv_lhs => rw [← ofValue_toInt x, ← ofValue_toInt y]
  refine congrArg mk ?_
  rw [sub_eq_add_neg x.toInt, BitVec.ofInt_add, BitVec.ofInt_neg]
  exact BitVec.sub_eq_add_neg _ _

theorem mul_eq_ofValue (x y : BitInt sign width) : x * y = ofValue (x.toInt * y.toInt) := by
  conv_lhs => rw [← ofValue_toInt x, ← ofValue_toInt y]
  exact congrArg mk (BitVec.ofInt_mul _ _).symm

theorem leq_iff {x y : BitInt sign width} : x.leq y = true ↔ x.toInt ≤ y.toInt := by
  cases sign
  · simp [leq, toInt, BitVec.ule_eq_decide]
  · simp [leq, toInt, BitVec.sle_eq_decide]

theorem geq_iff {x y : BitInt sign width} : x.geq y = true ↔ y.toInt ≤ x.toInt :=
  leq_iff

end BitInt

end Borealis
