import Mathlib.Data.BitVec
import Mathlib.Algebra.Order.Ring.Nat

/-!
# Where signed and unsigned division agree

A signed division computes with the absolute values, and so gives the unsigned quotient whenever
both operands are below `2 ^ (w - 1)`.  With a negative operand the two agree only now and then.  Let
`a` and `b` be the operands as unsigned numbers.

```text
a ≥ 0, b < 0     the unsigned quotient is 0, the signed one is 0 while a < 2 ^ w - b
a < 0, b ≥ 0     the quotients add up to 2 ^ w only for b = 1
a < 0, b < 0     the order of the absolute values is the reverse one
```
-/

namespace Borealis.Lib

/-! ## Unsigned numbers -/

section Unsigned

variable {a b H : ℕ}

/-- Negation gives 0 only for 0. -/
theorem sub_mod_eq_zero_iff {q : ℕ} (hq : q < 2 * H) : (2 * H - q) % (2 * H) = 0 ↔ q = 0 := by
  rcases Nat.eq_zero_or_pos q with rfl | hpos
  · simp
  · rw [Nat.mod_eq_of_lt (by omega)]
    omega

theorem div_neg_iff (ha : a < H) (hb : H ≤ b) (hlt : b < 2 * H) :
    (2 * H - a / (2 * H - b)) % (2 * H) = a / b ↔ a + b < 2 * H := by
  have hquot : a / (2 * H - b) < 2 * H :=
    lt_of_le_of_lt (Nat.div_le_self _ _) (by omega)
  rw [Nat.div_eq_of_lt (by omega : a < b), sub_mod_eq_zero_iff hquot,
    Nat.div_eq_zero_iff_lt (by omega)]
  omega

theorem neg_div_iff (ha : H ≤ a) (hlt : a < 2 * H) (hb : 0 < b) (hbH : b < H) :
    (2 * H - (2 * H - a) / b) % (2 * H) = a / b ↔ b = 1 := by
  have hpos : 0 < a / b := Nat.div_pos (by omega) hb
  have hle : (2 * H - a) / b + a / b ≤ 2 * H / b := by
    have : (2 * H - a) / b + a / b ≤ (2 * H - a + a) / b := Nat.div_add_div_le_add_div
    rwa [Nat.sub_add_cancel (by omega)] at this
  have hquot : 2 * H / b ≤ 2 * H := Nat.div_le_self _ _
  constructor
  · intro heq
    by_contra hne
    -- with a divisor of 2 or more the quotients add up to less than the whole range
    have hsmall : 2 * H / b < 2 * H := Nat.div_lt_self (by omega) (by omega)
    rcases Nat.eq_zero_or_pos ((2 * H - a) / b) with hzero | hquotPos
    · rw [hzero, Nat.sub_zero, Nat.mod_self] at heq
      omega
    · rw [Nat.mod_eq_of_lt (by omega)] at heq
      omega
  · rintro rfl
    rw [Nat.div_one, Nat.div_one, Nat.mod_eq_of_lt (by omega)]
    omega

theorem neg_div_neg_iff (ha : H ≤ a) (halt : a < 2 * H) (hb : H ≤ b) (hblt : b < 2 * H) :
    (2 * H - a) / (2 * H - b) = a / b ↔ a = b := by
  rcases Nat.lt_trichotomy a b with hlt | rfl | hlt
  · have hpos : 0 < (2 * H - a) / (2 * H - b) := Nat.div_pos (by omega) (by omega)
    rw [Nat.div_eq_of_lt hlt]
    omega
  · exact iff_of_true (by rw [Nat.div_self (by omega), Nat.div_self (by omega)]) rfl
  · have hpos : 0 < a / b := Nat.div_pos (by omega) (by omega)
    rw [Nat.div_eq_of_lt (by omega : 2 * H - a < 2 * H - b)]
    omega

theorem mod_neg_iff (ha : a < H) (hb : H ≤ b) (hlt : b < 2 * H) :
    a % (2 * H - b) = a % b ↔ a + b < 2 * H := by
  have hmod : a % (2 * H - b) < 2 * H - b := Nat.mod_lt _ (by omega)
  rw [Nat.mod_eq_of_lt (by omega : a < b)]
  constructor
  · intro heq
    omega
  · intro hsum
    exact Nat.mod_eq_of_lt (by omega)

theorem neg_mod_iff (hlt : a < 2 * H) (hb : 0 < b) (hbH : b < H) :
    (2 * H - (2 * H - a) % b) % (2 * H) = a % b ↔ b ∣ a ∧ b ∣ 2 * H := by
  have hmod : (2 * H - a) % b < b := Nat.mod_lt _ hb
  have hmod' : a % b < b := Nat.mod_lt _ hb
  constructor
  · intro heq
    rcases Nat.eq_zero_or_pos ((2 * H - a) % b) with hzero | hpos
    · rw [hzero, Nat.sub_zero, Nat.mod_self] at heq
      have hdvd : b ∣ a := Nat.dvd_of_mod_eq_zero heq.symm
      refine ⟨hdvd, ?_⟩
      have := Nat.dvd_add (Nat.dvd_of_mod_eq_zero hzero) hdvd
      rwa [Nat.sub_add_cancel (by omega)] at this
    · -- the negated remainder is in the upper half
      rw [Nat.mod_eq_of_lt (by omega)] at heq
      omega
  · rintro ⟨hdvd, hdvd'⟩
    rw [Nat.mod_eq_zero_of_dvd (Nat.dvd_sub hdvd' hdvd), Nat.sub_zero, Nat.mod_self,
      Nat.mod_eq_zero_of_dvd hdvd]

theorem neg_mod_neg_iff (ha : H ≤ a) (halt : a < 2 * H) (hb : H ≤ b) (hblt : b < 2 * H) :
    (2 * H - (2 * H - a) % (2 * H - b)) % (2 * H) = a % b ↔ a = b := by
  have hmod : (2 * H - a) % (2 * H - b) < 2 * H - b := Nat.mod_lt _ (by omega)
  rcases Nat.lt_trichotomy a b with hlt | rfl | hlt
  · rw [Nat.mod_eq_of_lt hlt]
    rcases Nat.eq_zero_or_pos ((2 * H - a) % (2 * H - b)) with hzero | hpos
    · rw [hzero, Nat.sub_zero, Nat.mod_self]
      omega
    · rw [Nat.mod_eq_of_lt (by omega)]
      omega
  · exact iff_of_true (by rw [Nat.mod_self, Nat.sub_zero, Nat.mod_self, Nat.mod_self]) rfl
  · rw [Nat.mod_eq_of_lt (by omega : 2 * H - a < 2 * H - b), Nat.mod_eq_of_lt (by omega),
      Nat.mod_eq_sub_mod (le_of_lt hlt), Nat.mod_eq_of_lt (by omega)]
    omega

end Unsigned

/-! ## Bit vectors -/

variable {w : ℕ} {x y : BitVec w}

/-- The halves of the unsigned range. -/
theorem two_pow_eq_of_ne_zero (hy : y ≠ 0#w) : 2 ^ w = 2 * 2 ^ (w - 1) := by
  rcases w with _ | w
  · exact absurd (Subsingleton.elim y _) hy
  · rw [Nat.add_sub_cancel, Nat.pow_succ, Nat.mul_comm]

theorem toNat_pos_of_ne_zero (hy : y ≠ 0#w) : 0 < y.toNat := by
  refine Nat.pos_of_ne_zero fun h => hy (BitVec.eq_of_toNat_eq ?_)
  rw [h, BitVec.toNat_zero]

theorem half_le_of_msb (hx : x.msb = true) : 2 ^ (w - 1) ≤ x.toNat := by
  rwa [BitVec.msb_eq_decide, decide_eq_true_eq] at hx

theorem lt_half_of_msb (hx : x.msb = false) : x.toNat < 2 ^ (w - 1) := by
  rw [BitVec.msb_eq_decide, decide_eq_false_iff_not] at hx
  omega

/-- The absolute value of a negative operand. -/
theorem toNat_neg_of_msb (hx : x.msb = true) : (-x).toNat = 2 ^ w - x.toNat := by
  have hpos : 0 < x.toNat := lt_of_lt_of_le (Nat.two_pow_pos _) (half_le_of_msb hx)
  rw [BitVec.toNat_neg, Nat.mod_eq_of_lt (by have := x.isLt; omega)]

/-- **The signed quotient is the unsigned one** when one divides by 1, a number by itself, or a
number that is not negative by one that is not too close to 0 from below. -/
theorem sdiv_eq_udiv_iff (hy : y ≠ 0#w) :
    x.sdiv y = x / y ↔
      y.toNat = 1 ∨ x = y ∨ x.msb = false ∧ x.toNat + y.toNat < 2 ^ w := by
  have hpow := two_pow_eq_of_ne_zero hy
  have hpos := toNat_pos_of_ne_zero hy
  have hxlt := x.isLt
  have hylt := y.isLt
  rw [BitVec.sdiv_eq, ← BitVec.toNat_inj, BitVec.toNat_udiv, ← BitVec.toNat_inj (x := x)]
  cases hxm : x.msb with
  | false =>
      have hxs := lt_half_of_msb hxm
      cases hym : y.msb with
      | false =>
          have hys := lt_half_of_msb hym
          exact iff_of_true rfl (Or.inr (Or.inr ⟨rfl, by omega⟩))
      | true =>
          have hys := half_le_of_msb hym
          simp only [BitVec.toNat_neg, BitVec.udiv_eq, BitVec.toNat_udiv]
          rw [← BitVec.toNat_neg, toNat_neg_of_msb hym, hpow, div_neg_iff hxs hys (by omega)]
          simp only [true_and]
          omega
  | true =>
      have hxs := half_le_of_msb hxm
      cases hym : y.msb with
      | false =>
          have hys := lt_half_of_msb hym
          simp only [BitVec.toNat_neg, BitVec.udiv_eq, BitVec.toNat_udiv]
          rw [← BitVec.toNat_neg, toNat_neg_of_msb hxm, hpow,
            neg_div_iff hxs (by omega) hpos hys]
          simp only [Bool.true_eq_false, false_and, or_false]
          omega
      | true =>
          have hys := half_le_of_msb hym
          simp only [BitVec.udiv_eq, BitVec.toNat_udiv]
          rw [toNat_neg_of_msb hxm, toNat_neg_of_msb hym, hpow,
            neg_div_neg_iff hxs (by omega) hys (by omega)]
          simp only [Bool.true_eq_false, false_and, or_false]
          omega

/-- **The signed remainder is the unsigned one** for a number and itself, for a number that is not
negative and one that is not too close to 0 from below, and for a negative number and a divisor of
both it and the whole range. -/
theorem srem_eq_umod_iff (hy : y ≠ 0#w) :
    x.srem y = x % y ↔
      x = y ∨ x.msb = false ∧ x.toNat + y.toNat < 2 ^ w ∨
        x.msb = true ∧ y.msb = false ∧ y.toNat ∣ x.toNat ∧ y.toNat ∣ 2 ^ w := by
  have hpow := two_pow_eq_of_ne_zero hy
  have hpos := toNat_pos_of_ne_zero hy
  have hxlt := x.isLt
  have hylt := y.isLt
  rw [BitVec.srem_eq, ← BitVec.toNat_inj, BitVec.toNat_umod, ← BitVec.toNat_inj (x := x)]
  cases hxm : x.msb with
  | false =>
      have hxs := lt_half_of_msb hxm
      cases hym : y.msb with
      | false =>
          have hys := lt_half_of_msb hym
          refine iff_of_true ?_ (Or.inr (Or.inl ⟨rfl, by omega⟩))
          exact BitVec.toNat_umod
      | true =>
          have hys := half_le_of_msb hym
          simp only [BitVec.toNat_umod]
          rw [toNat_neg_of_msb hym, hpow, mod_neg_iff hxs hys (by omega)]
          simp only [true_and, Bool.false_eq_true, false_and, or_false]
          omega
  | true =>
      have hxs := half_le_of_msb hxm
      cases hym : y.msb with
      | false =>
          have hys := lt_half_of_msb hym
          simp only [BitVec.toNat_neg, BitVec.toNat_umod]
          rw [← BitVec.toNat_neg, toNat_neg_of_msb hxm, hpow,
            neg_mod_iff (by omega) hpos hys]
          simp only [true_and, Bool.true_eq_false, false_and, false_or]
          refine ⟨Or.inr, fun h => h.resolve_left ?_⟩
          omega
      | true =>
          have hys := half_le_of_msb hym
          simp only [BitVec.toNat_neg, BitVec.toNat_umod]
          rw [← BitVec.toNat_neg, ← BitVec.toNat_neg, toNat_neg_of_msb hxm, toNat_neg_of_msb hym,
            hpow, neg_mod_neg_iff hxs (by omega) hys (by omega)]
          simp only [Bool.true_eq_false, false_and, and_false, or_false]

end Borealis.Lib
