import Borealis.Interpreter.IntervalLattice

/-!
# Bitwise operations on intervals

`operator&`, `operator|` and `operator^` of `Interpreter/Domain/Numerical/Interval.hpp`.  Two
constants are combined exactly, zero and minus one have cases of their own, and `&` knows that a
result is below a non-negative operand.

Minus one is the `int` `-1`, which `Adapter` extends to 64 bits and then with zeros.  In more than
64 bits it is the mask of the low 64 bits, and the cases that take it for all ones are right only
where the mask meets no greater numbers: `Masked` and `LowBits` say when.
-/

namespace Borealis

namespace BitInt

variable {sign : Bool} {width : Nat}

theorem toInt_nonneg_iff {x : BitInt sign width} :
    0 ≤ x.toInt ↔ sign = false ∨ x.inner.msb = false := by
  cases sign with
  | false => simp [toInt]
  | true =>
      rw [toInt, if_pos rfl]
      simpa using (BitVec.msb_eq_false_iff_two_mul_lt.trans (by
        rw [BitVec.toInt_eq_toNat_cond]
        have := x.inner.isLt
        split <;> omega)).symm

theorem toInt_of_nonneg {x : BitInt sign width} (hx : 0 ≤ x.toInt) :
    x.toInt = x.inner.toNat := by
  cases sign with
  | false => rfl
  | true =>
      have hmsb := (toInt_nonneg_iff.mp hx).resolve_left Bool.noConfusion
      rw [toInt, if_pos rfl, BitVec.toInt_eq_toNat_of_msb hmsb]

/-- A conjunction with a non-negative number lies between zero and the number. -/
theorem toInt_and_le {x : BitInt sign width} (y : BitInt sign width) (hx : 0 ≤ x.toInt) :
    0 ≤ (x &&& y).toInt ∧ (x &&& y).toInt ≤ x.toInt := by
  have hand : 0 ≤ (x &&& y).toInt := by
    rcases toInt_nonneg_iff.mp hx with hsign | hmsb
    · exact toInt_nonneg_iff.mpr (Or.inl hsign)
    · refine toInt_nonneg_iff.mpr (Or.inr ?_)
      show (x.inner &&& y.inner).msb = false
      rw [BitVec.msb_and, hmsb, Bool.false_and]
  refine ⟨hand, ?_⟩
  rw [toInt_of_nonneg hand, toInt_of_nonneg hx]
  show ((x.inner &&& y.inner).toNat : ℤ) ≤ x.inner.toNat
  rw [BitVec.toNat_and]
  exact_mod_cast Nat.and_le_left

theorem and_comm (x y : BitInt sign width) : x &&& y = y &&& x :=
  congrArg mk (BitVec.and_comm x.inner y.inner)

theorem or_comm (x y : BitInt sign width) : x ||| y = y ||| x :=
  congrArg mk (BitVec.or_comm x.inner y.inner)

/-! ## The constant minus one -/

theorem toNat_ofInt_neg_one :
    (ofInt (-1) : BitInt sign width).inner.toNat = (2 ^ 64 - 1) % 2 ^ width := by
  have hvalue : ((-1 : ℤ) % 2 ^ 64).toNat = 2 ^ 64 - 1 := by decide
  rw [ofInt, BitVec.toNat_ofNat, hvalue]

/-- In up to 64 bits minus one is all ones. -/
theorem ofInt_neg_one_of_le (hwidth : width ≤ 64) :
    (ofInt (-1) : BitInt sign width) = ⟨BitVec.allOnes width⟩ := by
  have hnat := @toNat_ofInt_neg_one sign width
  refine congrArg mk (BitVec.eq_of_toNat_eq (hnat.trans ?_))
  rw [BitVec.toNat_allOnes]
  obtain ⟨k, hk⟩ := Nat.pow_dvd_pow 2 hwidth
  have hpos : 0 < 2 ^ width := Nat.two_pow_pos width
  have hkpos : 0 < k := Nat.pos_of_ne_zero fun h => by simp [h] at hk
  have hsplit : 2 ^ 64 - 1 = (2 ^ width - 1) + 2 ^ width * (k - 1) := by
    rw [hk, Nat.mul_sub_one]
    have : 2 ^ width ≤ 2 ^ width * k := Nat.le_mul_of_pos_right _ hkpos
    omega
  rw [hsplit, Nat.add_mul_mod_self_left, Nat.mod_eq_of_lt (by omega)]

theorem toNat_neg_one (hwidth : 64 < width) :
    (ofInt (-1) : BitInt sign width).inner.toNat = 2 ^ 64 - 1 := by
  have hpow : 2 ^ 64 ≤ 2 ^ width := Nat.pow_le_pow_right two_pos hwidth.le
  rw [toNat_ofInt_neg_one, Nat.mod_eq_of_lt (by omega)]

/-- A number of at most 64 bits is not negative in more than 64 bits. -/
theorem toNat_lt_iff (hwidth : 64 < width) {y : BitInt sign width} :
    y.inner.toNat < 2 ^ 64 ↔ 0 ≤ y.toInt ∧ y.toInt ≤ 2 ^ 64 - 1 := by
  constructor
  · intro hlt
    have hpow : 2 ^ 65 ≤ 2 ^ width := Nat.pow_le_pow_right two_pos hwidth
    have hnonneg : 0 ≤ y.toInt := by
      refine toInt_nonneg_iff.mpr (Or.inr (BitVec.msb_eq_false_iff_two_mul_lt.mpr ?_))
      omega
    rw [toInt_of_nonneg hnonneg]
    omega
  · rintro ⟨hnonneg, hle⟩
    rw [toInt_of_nonneg hnonneg] at hle
    omega

theorem toInt_neg_one (hwidth : 64 < width) :
    (ofInt (-1) : BitInt sign width).toInt = 2 ^ 64 - 1 := by
  have hnat := @toNat_neg_one sign width hwidth
  have hlt : (ofInt (-1) : BitInt sign width).inner.toNat < 2 ^ 64 := by
    rw [hnat]
    norm_num
  have hnonneg := ((toNat_lt_iff hwidth).mp hlt).1
  rw [toInt_of_nonneg hnonneg, hnat]
  norm_num

/-- In more than 64 bits it is the mask of the low 64 bits. -/
theorem toInt_and_neg_one (hwidth : 64 < width) (y : BitInt sign width) :
    (ofInt (-1) &&& y).toInt = y.toInt % 2 ^ 64 := by
  have hmask : 0 ≤ (ofInt (-1) : BitInt sign width).toInt := by
    rw [toInt_neg_one hwidth]
    norm_num
  rw [toInt_of_nonneg (toInt_and_le y hmask).1]
  have hand : ((ofInt (-1) : BitInt sign width) &&& y).inner.toNat = y.inner.toNat % 2 ^ 64 := by
    show ((ofInt (-1) : BitInt sign width).inner &&& y.inner).toNat = _
    rw [BitVec.toNat_and, toNat_neg_one hwidth, Nat.and_comm, Nat.and_two_pow_sub_one_eq_mod]
  have hdvd : (2 : ℤ) ^ 64 ∣ 2 ^ width := pow_dvd_pow 2 hwidth.le
  rw [hand, ← Int.emod_emod_of_dvd _ hdvd, toInt_emod]
  norm_cast

theorem or_neg_one_iff (hwidth : 64 < width) (y : BitInt sign width) :
    ofInt (-1) ||| y = ofInt (-1) ↔ 0 ≤ y.toInt ∧ y.toInt ≤ 2 ^ 64 - 1 := by
  have hnat := @toNat_neg_one sign width hwidth
  have hor : (ofInt (-1) ||| y).inner.toNat = (2 ^ 64 - 1) ||| y.inner.toNat := by
    show ((ofInt (-1) : BitInt sign width).inner ||| y.inner).toNat = _
    rw [BitVec.toNat_or, hnat]
  rw [← toNat_lt_iff hwidth]
  constructor
  · intro heq
    have hle : y.inner.toNat ≤ (2 ^ 64 - 1) ||| y.inner.toNat := Nat.right_le_or
    rw [← hor, heq, hnat] at hle
    omega
  · intro hlt
    have hlt' : (2 ^ 64 - 1) ||| y.inner.toNat < 2 ^ 64 := Nat.or_lt_two_pow (by norm_num) hlt
    have hle : 2 ^ 64 - 1 ≤ (2 ^ 64 - 1) ||| y.inner.toNat := Nat.left_le_or
    have heq : (ofInt (-1) ||| y).inner = (ofInt (-1) : BitInt sign width).inner := by
      apply BitVec.eq_of_toNat_eq
      rw [hor, hnat]
      omega
    exact congrArg mk heq

end BitInt

namespace Interval

variable {sign : Bool} {width : Nat}

/-! ## Members of intermediate intervals -/

theorem mem_ofBounds_iff {lb ub : Bound sign width} {x : BitInt sign width} :
    x ∈ ofBounds lb ub ↔ lb.rank ≤ (Bound.finite x).rank ∧ (Bound.finite x).rank ≤ ub.rank :=
  mem_interval_iff

theorem mem_ofNumber (x : BitInt sign width) : x ∈ ofNumber x := by
  refine ⟨rfl, ?_⟩
  simp [contains, ofNumber, Bound.leq_iff]

theorem mem_ofNumber_iff {x n : BitInt sign width} : x ∈ ofNumber n ↔ x = n := by
  refine ⟨fun hx => ?_, fun h => h ▸ mem_ofNumber x⟩
  have hcontains := hx.2
  simp only [contains, ofNumber, Bool.and_eq_true, Bound.leq_iff, Bound.rank_finite_le_finite]
    at hcontains
  exact BitInt.toInt_injective (le_antisymm hcontains.2 hcontains.1)

theorem mem_getTop (x : BitInt sign width) : x ∈ getTop := by
  refine ⟨rfl, ?_⟩
  simp [contains, getTop, Bound.leq]

theorem isConstant_of_isConstantInt {a : Ptr sign width} {n : ℤ}
    (h : a.isConstantInt n = true) : a.isConstant = true ∧ a.asConstant = BitInt.ofInt n := by
  have hbounds : a.lb = .ofInt n ∧ a.ub = .ofInt n := by simpa [isConstantInt] using h
  simp [isConstant, asConstant, hbounds.1, hbounds.2, Bound.ofInt, Bound.number]

theorem mem_of_isConstantInt {a : Ptr sign width} {n : ℤ} (h : a.isConstantInt n = true) :
    BitInt.ofInt n ∈ a := by
  have hbounds : a.lb = .ofInt n ∧ a.ub = .ofInt n := by simpa [isConstantInt] using h
  rw [mem_iff, hbounds.1, hbounds.2]
  exact ⟨le_rfl, le_rfl⟩

theorem eq_of_isConstantInt {a : Ptr sign width} {n : ℤ} (h : a.isConstantInt n = true)
    {x : BitInt sign width} (hx : x ∈ a) : x = BitInt.ofInt n :=
  (eq_asConstant (isConstant_of_isConstantInt h).1 hx).trans (isConstant_of_isConstantInt h).2

/-- A member lies between the ends. -/
theorem mem_iff_lowest {a : Ptr sign width} (ha : ∃ x, x ∈ a) (x : BitInt sign width) :
    x ∈ a ↔ a.lb.lowest ≤ x.toInt ∧ x.toInt ≤ a.ub.highest := by
  rw [eq_interval a] at ha ⊢
  exact mem_iff_of_nonempty ha x

theorem exists_mem_toInt_eq {a : Ptr sign width} (ha : ∃ x, x ∈ a) {z : ℤ}
    (hlo : a.lb.lowest ≤ z) (hhi : z ≤ a.ub.highest) : ∃ x ∈ a, x.toInt = z := by
  rw [eq_interval a] at ha ⊢
  exact exists_mem_toInt ha hlo hhi

theorem toInt_ofInt_zero : (BitInt.ofInt 0 : BitInt sign width).toInt = 0 := by
  cases sign <;> simp [BitInt.toInt, BitInt.ofInt]

theorem minInt_nonpos : BitInt.minInt sign width ≤ 0 := by
  have := (BitInt.ofInt 0 : BitInt sign width).minInt_le_toInt
  rwa [toInt_ofInt_zero] at this

theorem maxInt_nonneg : 0 ≤ BitInt.maxInt sign width := by
  have := (BitInt.ofInt 0 : BitInt sign width).toInt_le_maxInt
  rwa [toInt_ofInt_zero] at this

/-- Only a finite bound is negative. -/
theorem exists_finite_of_highest_neg {e : Bound sign width} (h : e.highest < 0) :
    ∃ v, e = .finite v := by
  cases e with
  | finite v => exact ⟨v, rfl⟩
  | plusInfinity | minusInfinity => exact absurd maxInt_nonneg (not_le.mpr h)

theorem exists_finite_of_lowest_pos {e : Bound sign width} (h : 0 < e.lowest) :
    ∃ v, e = .finite v := by
  cases e with
  | finite v => exact ⟨v, rfl⟩
  | plusInfinity | minusInfinity => exact absurd minInt_nonpos (not_le.mpr h)

/-- A bound that is not negative bounds a number that is not. -/
theorem nonneg_of_geq {a : Ptr sign width} (h : a.lb.geq (.ofInt 0) = true)
    {x : BitInt sign width} (hx : x ∈ a) : 0 ≤ x.toInt := by
  have hrank := (Bound.geq_iff.mp h).trans (mem_iff.mp hx).1
  rwa [Bound.ofInt, Bound.rank_finite_le_finite, toInt_ofInt_zero] at hrank

/-! ## The mask -/

/-- The interval is one of numbers of at most 64 bits. -/
def LowBits (a : Ptr sign width) : Prop :=
  0 ≤ a.lb.lowest ∧ a.ub.highest ≤ 2 ^ 64 - 1

/-- A minus one that is a mask meets other numbers. -/
def Masked (m a : Ptr sign width) : Prop :=
  64 < width ∧ m.isConstantInt (-1) = true ∧ a.isConstant = false ∧ ∃ x, x ∈ a

/-- The mask changes no number of at most 64 bits. -/
theorem and_neg_one_of_lowBits (hwidth : 64 < width) {a : Ptr sign width} (hlow : LowBits a)
    {x : BitInt sign width} (hx : x ∈ a) : BitInt.ofInt (-1) &&& x = x := by
  obtain ⟨hl, hu⟩ := (mem_iff_lowest ⟨x, hx⟩ x).mp hx
  have hhigh := hu.trans hlow.2
  apply BitInt.toInt_injective
  rw [BitInt.toInt_and_neg_one hwidth]
  exact Int.emod_eq_of_lt (hlow.1.trans hl) (by linarith)

theorem forall_or_neg_one_iff (hwidth : 64 < width) {a : Ptr sign width} (ha : ∃ x, x ∈ a) :
    (∀ x ∈ a, BitInt.ofInt (-1) ||| x = BitInt.ofInt (-1)) ↔ LowBits a := by
  obtain ⟨x₀, hx₀⟩ := ha
  have hends := (mem_iff_lowest ⟨x₀, hx₀⟩ x₀).mp hx₀
  simp only [BitInt.or_neg_one_iff hwidth]
  constructor
  · intro h
    obtain ⟨x, hx, hlow⟩ := exists_mem_toInt_eq ⟨x₀, hx₀⟩ le_rfl (hends.1.trans hends.2)
    obtain ⟨y, hy, hhigh⟩ := exists_mem_toInt_eq ⟨x₀, hx₀⟩ (hends.1.trans hends.2) le_rfl
    exact ⟨hlow ▸ (h x hx).1, hhigh ▸ (h y hy).2⟩
  · intro h x hx
    obtain ⟨hl, hu⟩ := (mem_iff_lowest ⟨x₀, hx₀⟩ x).mp hx
    exact ⟨h.1.trans hl, hu.trans h.2⟩

theorem and_eq_of_neg_one {m a : Ptr sign width} (hm : m.isConstantInt (-1) = true)
    (hconstant : a.isConstant = false) (hmask : Masked m a → LowBits a) {x y : BitInt sign width}
    (hx : x ∈ m) (hy : y ∈ a) : x &&& y = y := by
  rw [eq_of_isConstantInt hm hx]
  rcases Nat.lt_or_ge 64 width with hwide | hnarrow
  · exact and_neg_one_of_lowBits hwide (hmask ⟨hwide, hm, hconstant, y, hy⟩) hy
  · rw [BitInt.ofInt_neg_one_of_le hnarrow]
    exact congrArg BitInt.mk BitVec.allOnes_and

theorem or_eq_of_neg_one {m a : Ptr sign width} (hm : m.isConstantInt (-1) = true)
    (hconstant : a.isConstant = false) (hmask : Masked m a → LowBits a) {x y : BitInt sign width}
    (hx : x ∈ m) (hy : y ∈ a) : x ||| y = BitInt.ofInt (-1) := by
  rw [eq_of_isConstantInt hm hx]
  rcases Nat.lt_or_ge 64 width with hwide | hnarrow
  · exact (forall_or_neg_one_iff hwide ⟨y, hy⟩).mpr
      (hmask ⟨hwide, hm, hconstant, y, hy⟩) y hy
  · rw [BitInt.ofInt_neg_one_of_le hnarrow]
    exact congrArg BitInt.mk BitVec.allOnes_or

/-- Two intervals are not both constants, and one is: the other is not. -/
theorem isConstant_eq_false {a b : Ptr sign width}
    (hboth : ¬ (a.isConstant && b.isConstant) = true) (ha : a.isConstant = true) :
    b.isConstant = false := by
  rw [ha, Bool.true_and, Bool.not_eq_true] at hboth
  exact hboth

/-! ## Soundness -/

section Sound

variable {a b : Ptr sign width} {x y : BitInt sign width}

/-- The result of two constants is computed. -/
theorem op_mem_ofNumber (op : BitInt sign width → BitInt sign width → BitInt sign width)
    (hboth : (a.isConstant && b.isConstant) = true) (hx : x ∈ a) (hy : y ∈ b) :
    op x y ∈ ofNumber (op a.asConstant b.asConstant) := by
  rw [Bool.and_eq_true] at hboth
  rw [eq_asConstant hboth.1 hx, eq_asConstant hboth.2 hy]
  exact mem_ofNumber _

theorem band_sound (hmask : Masked a b → LowBits b) (hmask' : Masked b a → LowBits a)
    (hx : x ∈ a) (hy : y ∈ b) : x &&& y ∈ a.toInterval.band b.toInterval := by
  unfold band
  rw [if_neg (by simp [hx.1, hy.1])]
  split
  · next hboth => exact op_mem_ofNumber (· &&& ·) hboth hx hy
  next hboth =>
  split
  · next hzero =>
      have hand : x &&& y = BitInt.ofInt 0 := by
        rcases Bool.or_eq_true_iff.mp hzero with h | h
        · rw [eq_of_isConstantInt h hx]
          exact congrArg BitInt.mk (by simp [BitInt.ofInt])
        · rw [eq_of_isConstantInt h hy]
          exact congrArg BitInt.mk (by simp [BitInt.ofInt])
      rw [hand]
      exact mem_ofNumber _
  split
  · next hm =>
      rw [and_eq_of_neg_one hm
        (isConstant_eq_false hboth (isConstant_of_isConstantInt hm).1) hmask hx hy]
      exact hy
  split
  · next hm =>
      rw [BitInt.and_comm, and_eq_of_neg_one hm (isConstant_eq_false (by rwa [Bool.and_comm])
        (isConstant_of_isConstantInt hm).1) hmask' hy hx]
      exact hx
  split
  · next hnonneg =>
      rw [Bool.and_eq_true] at hnonneg
      obtain ⟨hand, hle⟩ := BitInt.toInt_and_le y (nonneg_of_geq hnonneg.1 hx)
      obtain ⟨-, hle'⟩ := BitInt.toInt_and_le x (nonneg_of_geq hnonneg.2 hy)
      rw [BitInt.and_comm] at hle'
      rw [mem_ofBounds_iff, Bound.ofInt, Bound.rank_finite_le_finite, toInt_ofInt_zero,
        Bound.rank_min, le_min_iff]
      exact ⟨hand, (Bound.rank_finite_le_finite.mpr hle).trans (mem_iff.mp hx).2,
        (Bound.rank_finite_le_finite.mpr hle').trans (mem_iff.mp hy).2⟩
  split
  · next hnonneg =>
      obtain ⟨hand, hle⟩ := BitInt.toInt_and_le y (nonneg_of_geq hnonneg hx)
      rw [mem_ofBounds_iff, Bound.ofInt, Bound.rank_finite_le_finite, toInt_ofInt_zero]
      exact ⟨hand, (Bound.rank_finite_le_finite.mpr hle).trans (mem_iff.mp hx).2⟩
  · exact mem_getTop _

theorem bor_sound (hmask : Masked a b → LowBits b) (hmask' : Masked b a → LowBits a)
    (hx : x ∈ a) (hy : y ∈ b) : x ||| y ∈ a.toInterval.bor b.toInterval := by
  unfold bor
  rw [if_neg (by simp [hx.1, hy.1])]
  split
  · next hboth => exact op_mem_ofNumber (· ||| ·) hboth hx hy
  next hboth =>
  split
  · next hone =>
      have hor : x ||| y = BitInt.ofInt (-1) := by
        rcases Bool.or_eq_true_iff.mp hone with hm | hm
        · exact or_eq_of_neg_one hm
            (isConstant_eq_false hboth (isConstant_of_isConstantInt hm).1) hmask hx hy
        · rw [BitInt.or_comm]
          exact or_eq_of_neg_one hm (isConstant_eq_false (by rwa [Bool.and_comm])
            (isConstant_of_isConstantInt hm).1) hmask' hy hx
      rw [hor]
      exact mem_ofNumber _
  split
  · next hzero =>
      have hor : x ||| y = x := by
        rw [eq_of_isConstantInt hzero hy]
        exact congrArg BitInt.mk (by simp [BitInt.ofInt])
      rw [hor]
      exact hx
  split
  · next hzero =>
      have hor : x ||| y = y := by
        rw [eq_of_isConstantInt hzero hx]
        exact congrArg BitInt.mk (by simp [BitInt.ofInt])
      rw [hor]
      exact hy
  · exact mem_getTop _

theorem xor_sound (hx : x ∈ a) (hy : y ∈ b) : x ^^^ y ∈ a.toInterval.xor b.toInterval := by
  unfold xor
  rw [if_neg (by simp [hx.1, hy.1])]
  split
  · next hboth => exact op_mem_ofNumber (· ^^^ ·) hboth hx hy
  split
  · next hzero =>
      have hxor : x ^^^ y = x := by
        rw [eq_of_isConstantInt hzero hy]
        exact congrArg BitInt.mk (by simp [BitInt.ofInt])
      rw [hxor]
      exact hx
  split
  · next hzero =>
      have hxor : x ^^^ y = y := by
        rw [eq_of_isConstantInt hzero hx]
        exact congrArg BitInt.mk (by simp [BitInt.ofInt])
      rw [hxor]
      exact hy
  · exact mem_getTop _

end Sound

/-! ## When the operations are right -/

/-- Bitwise results belong to the results of the operators. -/
structure BitsSound (a b : Ptr sign width) : Prop where
  band : ∀ x ∈ a, ∀ y ∈ b, x &&& y ∈ a.toInterval.band b.toInterval
  bor : ∀ x ∈ a, ∀ y ∈ b, x ||| y ∈ a.toInterval.bor b.toInterval
  xor : ∀ x ∈ a, ∀ y ∈ b, x ^^^ y ∈ a.toInterval.xor b.toInterval

/-- A mask that is taken for all ones meets only numbers that it does not change. -/
def MaskFits (a b : Ptr sign width) : Prop :=
  (Masked a b → LowBits b) ∧ (Masked b a → LowBits a)

/-- A disjunction with a mask is the mask. -/
theorem bor_masked {m a : Ptr sign width} (h : Masked m a) :
    m.toInterval.bor a.toInterval = ofInt (-1) ∧ a.toInterval.bor m.toInterval = ofInt (-1) := by
  obtain ⟨-, hm, hconstant, x, hx⟩ := h
  have hmem := mem_of_isConstantInt hm
  constructor
  · simp [Interval.bor, hmem.1, hx.1, hconstant, hm]
  · simp [Interval.bor, hmem.1, hx.1, hconstant, hm]

theorem lowBits_of_bor {m a : Ptr sign width} (h : Masked m a)
    (hsound : ∀ x ∈ a, BitInt.ofInt (-1) ||| x ∈ (ofInt (-1) : Interval sign width)) :
    LowBits a :=
  (forall_or_neg_one_iff h.1 h.2.2.2).mp fun x hx => mem_ofNumber_iff.mp (hsound x hx)

/-- **The bitwise operators are right exactly when no mask is taken for all ones** in front of
numbers of more than 64 bits. -/
theorem bitsSound_iff (a b : Ptr sign width) : BitsSound a b ↔ MaskFits a b := by
  constructor
  · intro h
    constructor
    · intro hmasked
      refine lowBits_of_bor hmasked fun x hx => ?_
      rw [← (bor_masked hmasked).1]
      exact h.bor _ (mem_of_isConstantInt hmasked.2.1) x hx
    · intro hmasked
      refine lowBits_of_bor hmasked fun x hx => ?_
      rw [BitInt.or_comm, ← (bor_masked hmasked).2]
      exact h.bor x hx _ (mem_of_isConstantInt hmasked.2.1)
  · rintro ⟨hmask, hmask'⟩
    exact ⟨fun x hx y hy => band_sound hmask hmask' hx hy,
      fun x hx y hy => bor_sound hmask hmask' hx hy, fun x hx y hy => xor_sound hx hy⟩

/-- **In 65 bits, minus one is a mask**: its disjunction with a greater number is not the mask. -/
theorem bitsSound_fails :
    ¬ ∀ (sign : Bool) (width : Nat) (a b : Ptr sign width), BitsSound a b := by
  intro hclaim
  have hfits := (bitsSound_iff _ _).mp (hclaim false 65 (interval (.ofInt (-1)) (.ofInt (-1)))
    top)
  have hlow := hfits.1 ⟨by norm_num, by decide, by decide, BitInt.ofInt 0, by decide⟩
  have hhigh := hlow.2
  simp [top, interval, Bound.highest, BitInt.maxInt, BitInt.minInt] at hhigh

end Interval

end Borealis
