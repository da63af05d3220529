import Borealis.Interpreter.IntervalDivision

/-!
# Interval shifts

`operator<<`, `operator>>` and `lshr` of `Interpreter/Domain/Numerical/Interval.hpp`.  The amounts
are the non-negative part of the right operand.

* The right shifts take the four shifted ends.  `>>` keeps the order of the numbers and is monotone
  in the amount on each half of the type, so the ends are right as long as the amounts end: by an
  amount of `+oo` a bound is shifted to an infinity, although the numbers approach zero or minus
  one.
* `lshr` shifts finite bounds with `>>`, which fills in the sign: numbers of the upper half are
  shifted to the wrong end.
* `<<` multiplies by the powers of two between the ends of the amounts, and the powers wrap as the
  products do.
-/

namespace Borealis

open Lib

namespace BitInt

variable {sign : Bool} {width : Nat}

/-- The value of a machine integer and the signed value of its pattern differ by a turn in the
upper half of the unsigned integers. -/
theorem toInt_eq_signed (x : BitInt sign width) :
    x.toInt = x.inner.toInt + if sign = false ∧ x.inner.toInt < 0 then 2 ^ width else 0 := by
  cases sign with
  | true => simp [toInt]
  | false =>
      have := x.inner.isLt
      have hneg := BitVec.toInt_neg_iff (x := x.inner)
      simp only [toInt, Bool.false_eq_true, if_false, true_and]
      split
      · next h =>
          rw [BitVec.toInt_eq_toNat_cond] at h ⊢
          split at h
          · omega
          · next hcond =>
              rw [if_neg hcond]
              push_cast
              ring
      · next h =>
          rw [BitVec.toInt_eq_toNat_cond] at h ⊢
          split
          · simp
          · next hcond =>
              rw [if_neg hcond] at h
              push_cast at h
              have : ((x.inner.toNat : ℤ)) < 2 ^ width := by exact_mod_cast x.inner.isLt
              omega

theorem signed_bounds (x : BitInt sign width) :
    -2 ^ width ≤ 2 * x.inner.toInt ∧ 2 * x.inner.toInt < 2 ^ width :=
  ⟨BitVec.le_two_mul_toInt, BitVec.two_mul_toInt_lt⟩

theorem signed_ashr (x k : BitInt sign width) :
    (x.ashr k).inner.toInt = x.inner.toInt / 2 ^ k.inner.toNat := by
  rw [ashr, BitVec.sshiftRight', BitVec.toInt_sshiftRight, Int.shiftRight_eq_div_pow]
  norm_cast

/-- The order of machine integers, by their signed values. -/
theorem toInt_le_iff_signed (x y : BitInt sign width) :
    x.toInt ≤ y.toInt ↔
      if sign = true ∨ (0 ≤ x.inner.toInt ↔ 0 ≤ y.inner.toInt) then x.inner.toInt ≤ y.inner.toInt
      else y.inner.toInt < 0 := by
  rw [toInt_eq_signed x, toInt_eq_signed y]
  have hx := signed_bounds x
  have hy := signed_bounds y
  cases sign with
  | true => simp
  | false =>
      simp only [true_and, Bool.false_eq_true, false_or]
      split_ifs <;> constructor <;> intro _ <;> omega

theorem signed_ashr_nonneg_iff (x k : BitInt sign width) :
    0 ≤ (x.ashr k).inner.toInt ↔ 0 ≤ x.inner.toInt := by
  rw [signed_ashr]
  exact Int.ediv_nonneg_iff_of_pos (by positivity)

/-- `>>` keeps the order. -/
theorem ashr_mono {x y : BitInt sign width} (h : x.toInt ≤ y.toInt) (k : BitInt sign width) :
    (x.ashr k).toInt ≤ (y.ashr k).toInt := by
  rw [toInt_le_iff_signed] at h ⊢
  simp only [signed_ashr_nonneg_iff]
  split at h
  · next hsame =>
      rw [if_pos hsame, signed_ashr, signed_ashr]
      exact Int.ediv_le_ediv (by positivity) h
  · next hsame =>
      rw [if_neg hsame, ← not_le, signed_ashr_nonneg_iff, not_le]
      exact h

theorem ediv_two_pow (z : ℤ) {m n : ℕ} (h : m ≤ n) : z / 2 ^ n = z / 2 ^ m / 2 ^ (n - m) := by
  rw [Int.ediv_ediv_of_nonneg (by positivity), ← pow_add, Nat.add_sub_cancel' h]

/-- A greater amount brings a number of the lower half closer to zero. -/
theorem ashr_anti {x k k' : BitInt sign width} (hx : 0 ≤ x.inner.toInt)
    (h : k.inner.toNat ≤ k'.inner.toNat) : (x.ashr k').toInt ≤ (x.ashr k).toInt := by
  simp only [toInt_le_iff_signed, signed_ashr_nonneg_iff, or_true, if_true]
  rw [signed_ashr, signed_ashr, ediv_two_pow _ h]
  exact Int.ediv_le_self _ (Int.ediv_nonneg hx (by positivity))

/-- A greater amount brings a number of the upper half closer to minus one. -/
theorem ashr_mono_right {x k k' : BitInt sign width} (hx : x.inner.toInt < 0)
    (h : k.inner.toNat ≤ k'.inner.toNat) : (x.ashr k).toInt ≤ (x.ashr k').toInt := by
  simp only [toInt_le_iff_signed, signed_ashr_nonneg_iff, or_true, if_true]
  rw [signed_ashr, signed_ashr, ediv_two_pow _ h]
  have hneg : x.inner.toInt / 2 ^ k.inner.toNat < 0 := Int.ediv_neg_of_neg_of_pos hx (by positivity)
  rw [Int.le_ediv_iff_mul_le (by positivity)]
  have hpow : (1 : ℤ) ≤ 2 ^ (k'.inner.toNat - k.inner.toNat) := one_le_pow₀ one_le_two
  nlinarith

/-- One of two amounts around a third shifts below it, and one above. -/
theorem ashr_between (x : BitInt sign width) {s k u : BitInt sign width}
    (hs : s.inner.toNat ≤ k.inner.toNat) (hu : k.inner.toNat ≤ u.inner.toNat) :
    ((x.ashr s).toInt ≤ (x.ashr k).toInt ∨ (x.ashr u).toInt ≤ (x.ashr k).toInt) ∧
      ((x.ashr k).toInt ≤ (x.ashr s).toInt ∨ (x.ashr k).toInt ≤ (x.ashr u).toInt) := by
  rcases lt_or_ge x.inner.toInt 0 with hx | hx
  · exact ⟨Or.inl (ashr_mono_right hx hs), Or.inr (ashr_mono_right hx hu)⟩
  · exact ⟨Or.inr (ashr_anti hx hu), Or.inl (ashr_anti hx hs)⟩

theorem lshr_eq_ashr {x : BitInt sign width} (hx : 0 ≤ x.inner.toInt) (k : BitInt sign width) :
    x.lshr k = x.ashr k := by
  have hmsb : x.inner.msb = false := by
    rw [BitVec.msb_eq_toInt]
    simpa using hx
  exact congrArg mk (BitVec.sshiftRight_eq_of_msb_false hmsb).symm

theorem lshr_zero {k : BitInt sign width} (hk : k.inner.toNat = 0) (x : BitInt sign width) :
    x.lshr k = x ∧ x.ashr k = x := by
  constructor
  · refine congrArg mk ?_
    rw [BitVec.ushiftRight_eq', hk, BitVec.ushiftRight_zero]
  · refine congrArg mk ?_
    rw [BitVec.sshiftRight', hk, BitVec.sshiftRight_zero]

/-- A logical shift by one or more is not negative, and in the lower half. -/
theorem toInt_lshr {k : BitInt sign width} (hk : 0 < k.inner.toNat) (x : BitInt sign width) :
    (x.lshr k).toInt = x.inner.toNat / 2 ^ k.inner.toNat ∧ 2 * (x.lshr k).toInt < 2 ^ width := by
  have hnat : ((x.lshr k).inner.toNat : ℤ) = x.inner.toNat / 2 ^ k.inner.toNat := by
    rw [lshr, BitVec.ushiftRight_eq', BitVec.toNat_ushiftRight, Nat.shiftRight_eq_div_pow]
    norm_cast
  have hsigned : (x.lshr k).inner.toInt = x.inner.toNat / 2 ^ k.inner.toNat := by
    rw [lshr, BitVec.ushiftRight_eq', BitVec.toInt_ushiftRight_of_lt hk,
      Nat.shiftRight_eq_div_pow]
    norm_cast
  have hbound := (signed_bounds (x.lshr k)).2
  have hvalue : (x.lshr k).toInt = (x.lshr k).inner.toInt := by
    rw [toInt_eq_signed, if_neg, add_zero]
    rw [hsigned]
    have : (0 : ℤ) ≤ x.inner.toNat / 2 ^ k.inner.toNat := by positivity
    omega
  rw [hvalue]
  exact ⟨hsigned, hbound⟩

/-- Over the unsigned integers the logical shift is below the arithmetic one. -/
theorem lshr_le_ashr (x k : BitInt false width) : (x.lshr k).toInt ≤ (x.ashr k).toInt := by
  rcases lt_or_ge x.inner.toInt 0 with hx | hx
  · rcases Nat.eq_zero_or_pos k.inner.toNat with hk | hk
    · rw [(lshr_zero hk x).1, (lshr_zero hk x).2]
    · have hhalf := (toInt_lshr hk x).2
      have hneg := signed_ashr_nonneg_iff x k
      have hvalue := toInt_eq_signed (x.ashr k)
      have hbounds := signed_bounds (x.ashr k)
      rw [if_pos ⟨rfl, by omega⟩] at hvalue
      omega
  · rw [lshr_eq_ashr hx]

/-- A number of the upper half is shifted to a positive one. -/
theorem lshr_pos {x k : BitInt sign width} (hx : x.inner.toInt < 0) (hk : 0 < k.inner.toNat)
    (hwidth : k.inner.toNat < width) : 0 < (x.lshr k).toInt := by
  rw [(toInt_lshr hk x).1]
  have hhalf : 2 ^ width ≤ 2 * x.inner.toNat := by
    rw [BitVec.toInt_eq_toNat_cond] at hx
    split at hx
    · omega
    · omega
  have hpow : 2 ^ k.inner.toNat ≤ x.inner.toNat := by
    have hle : 2 ^ (k.inner.toNat + 1) ≤ 2 ^ width := Nat.pow_le_pow_right two_pos hwidth
    rw [pow_succ] at hle
    omega
  have := Nat.div_pos hpow (by positivity)
  exact_mod_cast this

/-- Over the unsigned integers the logical shift keeps the order and falls with the amount. -/
theorem lshr_mono {x y k k' : BitInt false width} (h : x.toInt ≤ y.toInt)
    (hk : k'.inner.toNat ≤ k.inner.toNat) : (x.lshr k).toInt ≤ (y.lshr k').toInt := by
  have hvalue : ∀ z j : BitInt false width,
      (z.lshr j).toInt = ((z.inner.toNat / 2 ^ j.inner.toNat : ℕ) : ℤ) := by
    intro z j
    rw [lshr, toInt, if_neg Bool.noConfusion, BitVec.ushiftRight_eq', BitVec.toNat_ushiftRight,
      Nat.shiftRight_eq_div_pow]
  rw [hvalue, hvalue]
  have hle : x.inner.toNat ≤ y.inner.toNat := Int.ofNat_le.mp h
  exact_mod_cast (Nat.div_le_div_right hle).trans
    (Nat.div_le_div_left (Nat.pow_le_pow_right two_pos hk) (by positivity))

end BitInt

namespace Bound

variable {sign : Bool} {width : Nat}

theorem geq_zero {s : BitInt sign width} (hs : 0 ≤ s.toInt) :
    (finite s).geq (ofInt 0) = true := by
  rw [geq_iff, ofInt, rank_finite_le_finite, Interval.toInt_ofInt_zero]
  exact hs

theorem zero_ashr (s : BitInt sign width) : (BitInt.ofInt 0).ashr s = BitInt.ofInt 0 := by
  apply BitInt.toInt_injective
  have hsigned := BitInt.signed_ashr (BitInt.ofInt 0) s
  have hzero : (BitInt.ofInt 0 : BitInt sign width).inner.toInt = 0 := by simp [BitInt.ofInt]
  rw [BitInt.toInt_eq_signed, BitInt.toInt_eq_signed, hsigned, hzero, Int.zero_ediv]

/-- Both right shifts shift a finite bound by a finite amount with `>>`. -/
theorem ashr_finite (v : BitInt sign width) {s : BitInt sign width} (hs : 0 ≤ s.toInt) :
    (finite v).ashr (finite s) = some (finite (v.ashr s)) ∧
      (finite v).lshr (finite s) = some (finite (v.ashr s)) := by
  have hgeq := geq_zero hs
  by_cases hv : v = BitInt.ofInt 0
  · simp [Bound.ashr, Bound.lshr, hgeq, isZero, hv, zero_ashr]
  · simp [Bound.ashr, Bound.lshr, hgeq, isZero, hv, isFinite, number]

/-- An infinite bound stays as it is. -/
theorem ashr_infinite {b r : Bound sign width} (hb : b.isFinite = false)
    (hr : r.geq (ofInt 0) = true) : b.ashr r = some b ∧ b.lshr r = some b := by
  simp [Bound.ashr, Bound.lshr, hr, hb]

/-- By an amount of `+oo` the one shift gives an infinity and the other zero. -/
theorem ashr_plusInfinity {v : BitInt sign width} (hv : v.toInt ≠ 0) :
    (finite v).ashr plusInfinity =
        some (if 0 < v.toInt then plusInfinity else minusInfinity) ∧
      (finite v).lshr plusInfinity = some (ofInt 0) := by
  have hzero : v ≠ BitInt.ofInt 0 := by
    rintro rfl
    exact hv Interval.toInt_ofInt_zero
  have hleq : v.leq (BitInt.ofInt 0) = !decide (0 < v.toInt) := by
    rw [Bool.eq_iff_iff, BitInt.leq_iff, Interval.toInt_ofInt_zero]
    simp
  simp [Bound.ashr, Bound.lshr, isZero, isFinite, isPositive, geq, ofInt, hzero, hleq]

end Bound

namespace Interval

variable {sign : Bool} {width : Nat}

/-! ## The amounts -/

/-- The amounts of a shift: from `s` to the end of `b`. -/
structure Amounts (b : Ptr sign width) (s : BitInt sign width) : Prop where
  shift_eq : b.shift = ofBounds (.finite s) b.ub
  isBottom : b.shift.isBottom = false
  nonneg : 0 ≤ s.toInt
  start_eq : s.toInt = max b.lb.lowest 0
  end_cases : b.ub = .plusInfinity ∨ ∃ u, b.ub = .finite u ∧ s.toInt ≤ u.toInt

theorem min_plusInfinity (b : Bound sign width) : b.min .plusInfinity = b := by
  unfold Bound.min
  split
  · rfl
  · next h =>
      cases b with
      | plusInfinity => rfl
      | minusInfinity => simp [Bound.lt, Bound.geq] at h
      | finite v => simp [Bound.lt, Bound.geq] at h

/-- An interval with a non-negative member has amounts. -/
theorem exists_amounts {b : Ptr sign width} {k : BitInt sign width} (hk : k ∈ b)
    (hnonneg : 0 ≤ k.toInt) : ∃ s, Amounts b s ∧ s.toInt ≤ k.toInt := by
  obtain ⟨hl, hu⟩ := mem_iff.mp hk
  have hstart : ∃ s, b.lb.max (.ofInt 0) = .finite s ∧ s.toInt = max b.lb.lowest 0 := by
    have hmin := (BitInt.ofInt 0 : BitInt sign width).minInt_le_toInt
    rw [toInt_ofInt_zero] at hmin
    cases hlb : b.lb with
    | plusInfinity => simp [hlb, Bound.rank] at hl
    | minusInfinity =>
        refine ⟨BitInt.ofInt 0, by simp [Bound.max, Bound.lt, Bound.geq, Bound.ofInt], ?_⟩
        rw [toInt_ofInt_zero, Bound.lowest, max_eq_right hmin]
        simp
    | finite v =>
        unfold Bound.max
        split
        · next h =>
            simp only [Bound.lt, Bool.not_eq_true', ← Bool.not_eq_true, Bound.geq_iff, Bound.ofInt,
              Bound.rank_finite_le_finite, toInt_ofInt_zero, not_le] at h
            exact ⟨BitInt.ofInt 0, rfl, by rw [toInt_ofInt_zero, Bound.lowest, max_eq_right h.le]⟩
        · next h =>
            simp only [Bound.lt, Bool.not_eq_true', Bool.not_eq_false, Bound.geq_iff, Bound.ofInt,
              Bound.rank_finite_le_finite, toInt_ofInt_zero] at h
            exact ⟨v, rfl, by rw [Bound.lowest, max_eq_left h]⟩
  obtain ⟨s, hs, hvalue⟩ := hstart
  have hshift : b.shift = ofBounds (.finite s) b.ub := by
    have hbottom : (interval (.ofInt 0) .plusInfinity : Ptr sign width).isBottom = false := rfl
    unfold shift meet
    rw [hk.1, hbottom]
    simp [hs, min_plusInfinity]
  have hlow := ((mem_iff_lowest ⟨k, hk⟩ k).mp hk).1
  have hsk : s.toInt ≤ k.toInt := by
    rw [hvalue]
    exact max_le hlow hnonneg
  refine ⟨s, ⟨hshift, ?_, by rw [hvalue]; exact le_max_right _ _, hvalue, ?_⟩, hsk⟩
  · rw [hshift]
    simp only [ofBounds, Bound.gt, Bool.not_eq_false', Bound.leq_iff]
    exact (Bound.rank_finite_le_finite.mpr hsk).trans hu
  · cases hub : b.ub with
    | plusInfinity => exact Or.inl rfl
    | minusInfinity => simp [hub, Bound.rank] at hu
    | finite u =>
        rw [hub, Bound.rank_finite_le_finite] at hu
        exact Or.inr ⟨u, rfl, hsk.trans hu⟩

/-- A shift that returns has the shifted member for every amount below the width. -/
def ShiftSound (opcode : ArithType)
    (f : BitInt sign width → BitInt sign width → BitInt sign width) (a b : Ptr sign width) : Prop :=
  ∃ r, apply opcode a b = some r ∧
    ∀ x ∈ a, ∀ k ∈ b, 0 ≤ k.toInt → k.toInt < width → f x k ∈ r

/-- The operator accepts every amount that is not negative. -/
def Accepts (op : Bound sign width → Bound sign width → Option (Bound sign width)) : Prop :=
  ∀ l r, r.geq (.ofInt 0) = true → ∃ d, op l r = some d

theorem accepts_ashr : Accepts (Bound.ashr : Bound sign width → _) := by
  intro l r hr
  unfold Bound.ashr
  rw [if_neg (by simp [hr])]
  split_ifs <;> exact ⟨_, rfl⟩

theorem accepts_lshr : Accepts (Bound.lshr : Bound sign width → _) := by
  intro l r hr
  unfold Bound.lshr
  rw [if_neg (by simp [hr])]
  split_ifs <;> exact ⟨_, rfl⟩

theorem accepts_shl : Accepts (Bound.shl : Bound sign width → _) := by
  intro l r hr
  unfold Bound.shl
  rw [if_neg (by simp [hr])]
  split_ifs <;> exact ⟨_, rfl⟩

/-- The ends of the amounts are not negative. -/
theorem shift_geq_zero {b : Ptr sign width} (hb : b.isBottom = false)
    (hshift : b.shift.isBottom = false) :
    b.shift.lb.geq (.ofInt 0) = true ∧ b.shift.ub.geq (.ofInt 0) = true := by
  have hbottom : (interval (.ofInt 0) .plusInfinity : Ptr sign width).isBottom = false := rfl
  have hlb : (Bound.ofInt 0 : Bound sign width).rank ≤ b.shift.lb.rank := by
    unfold shift meet
    rw [hb, hbottom]
    simp only [Bool.or_self, Bool.false_eq_true, if_false, interval_toInterval, ofBounds_lb,
      Bound.rank_max]
    exact le_max_right _ _
  have hle : b.shift.lb.rank ≤ b.shift.ub.rank := by
    unfold shift at hshift ⊢
    exact isBottom_eq_false_iff.mp hshift
  exact ⟨Bound.geq_iff.mpr hlb, Bound.geq_iff.mpr (hlb.trans hle)⟩

/-- A right shift always returns. -/
theorem shiftRight_isSome {op : Bound sign width → Bound sign width → Option (Bound sign width)}
    (hop : Accepts op) (a b : Ptr sign width) :
    (shiftRight op a.toInterval b.toInterval).isSome := by
  unfold shiftRight
  cases ha : a.isBottom with
  | true => simp
  | false =>
      cases hb : b.isBottom with
      | true => simp
      | false =>
          cases hshift : b.shift.isBottom with
          | true => simp
          | false =>
              cases hzero : a.contains (BitInt.ofInt 0) with
              | true => simp
              | false =>
                  obtain ⟨hlb, hub⟩ := shift_geq_zero hb hshift
                  obtain ⟨ll, hll⟩ := hop a.lb _ hlb
                  obtain ⟨lu, hlu⟩ := hop a.lb _ hub
                  obtain ⟨ul, hul⟩ := hop a.ub _ hlb
                  obtain ⟨uu, huu⟩ := hop a.ub _ hub
                  simp [hll, hlu, hul, huu]

theorem apply_ashr_isSome (a b : Ptr sign width) : (apply .ashr a b).isSome := by
  have := shiftRight_isSome accepts_ashr a b
  simpa [apply, ashr] using this

theorem apply_lshr_isSome (a b : Ptr sign width) : (apply .lshr a b).isSome := by
  have := shiftRight_isSome accepts_lshr a b
  simpa [apply, lshr] using this

/-- The four corners of a right shift. -/
structure ShiftCorners (op : Bound sign width → Bound sign width → Option (Bound sign width))
    (a b : Ptr sign width) (s : BitInt sign width) (ll lu ul uu : Bound sign width) : Prop where
  ll_eq : op a.lb (.finite s) = some ll
  lu_eq : op a.lb b.ub = some lu
  ul_eq : op a.ub (.finite s) = some ul
  uu_eq : op a.ub b.ub = some uu
  shift_eq : shiftRight op a.toInterval b.toInterval =
    some (ofBounds (Bound.min₄ ll lu ul uu) (Bound.max₄ ll lu ul uu))

theorem ShiftCorners.apply_ashr {a b : Ptr sign width} {s : BitInt sign width}
    {ll lu ul uu : Bound sign width} (hc : ShiftCorners Bound.ashr a b s ll lu ul uu) :
    apply .ashr a b =
      some (clone (ofBounds (Bound.min₄ ll lu ul uu) (Bound.max₄ ll lu ul uu))) := by
  simp only [apply, ashr, hc.shift_eq, Option.map_some]

theorem ShiftCorners.apply_lshr {a b : Ptr sign width} {s : BitInt sign width}
    {ll lu ul uu : Bound sign width} (hc : ShiftCorners Bound.lshr a b s ll lu ul uu) :
    apply .lshr a b =
      some (clone (ofBounds (Bound.min₄ ll lu ul uu) (Bound.max₄ ll lu ul uu))) := by
  simp only [apply, lshr, hc.shift_eq, Option.map_some]

theorem exists_shiftCorners
    {op : Bound sign width → Bound sign width → Option (Bound sign width)} (hop : Accepts op)
    {a b : Ptr sign width} {s : BitInt sign width} (ha : a.isBottom = false)
    (hb : b.isBottom = false) (hs : Amounts b s) (hzero : a.contains (BitInt.ofInt 0) = false) :
    ∃ ll lu ul uu, ShiftCorners op a b s ll lu ul uu := by
  obtain ⟨hlb, hub⟩ := shift_geq_zero hb hs.isBottom
  rw [hs.shift_eq] at hlb hub
  obtain ⟨ll, hll⟩ := hop a.lb _ hlb
  obtain ⟨lu, hlu⟩ := hop a.lb _ hub
  obtain ⟨ul, hul⟩ := hop a.ub _ hlb
  obtain ⟨uu, huu⟩ := hop a.ub _ hub
  refine ⟨ll, lu, ul, uu, hll, hlu, hul, huu, ?_⟩
  rw [ofBounds_lb] at hll hul
  rw [ofBounds_ub] at hlu huu
  have hbottom := hs.isBottom
  have hshift := hs.shift_eq
  unfold shiftRight
  rw [ha, hb, hzero]
  simp only [hshift] at hbottom ⊢
  simp [hbottom, hll, hlu, hul, huu]

/-- The corners around a number. -/
theorem mem_corners_iff {ll lu ul uu : Bound sign width} {q : BitInt sign width} :
    q ∈ clone (ofBounds (Bound.min₄ ll lu ul uu) (Bound.max₄ ll lu ul uu)) ↔
      (ll.rank ≤ (Bound.finite q).rank ∨ lu.rank ≤ (Bound.finite q).rank ∨
        ul.rank ≤ (Bound.finite q).rank ∨ uu.rank ≤ (Bound.finite q).rank) ∧
      ((Bound.finite q).rank ≤ ll.rank ∨ (Bound.finite q).rank ≤ lu.rank ∨
        (Bound.finite q).rank ≤ ul.rank ∨ (Bound.finite q).rank ≤ uu.rank) :=
  mem_of_corners

/-- An interval without zero is positive or negative. -/
theorem ends_of_mem {a : Ptr sign width} (hzero : a.contains (BitInt.ofInt 0) = false)
    {x : BitInt sign width} (hx : x ∈ a) :
    (∃ v, a.lb = .finite v ∧ 0 < v.toInt ∧ v.toInt ≤ x.toInt ∧
        (a.ub = .plusInfinity ∨ ∃ u, a.ub = .finite u ∧ x.toInt ≤ u.toInt)) ∨
      ∃ v, a.ub = .finite v ∧ v.toInt < 0 ∧ x.toInt ≤ v.toInt ∧
        (a.lb = .minusInfinity ∨ ∃ u, a.lb = .finite u ∧ u.toInt ≤ x.toInt) := by
  rcases spans_of_mem hzero hx with h | h
  · obtain ⟨v, hv, habs, hpos⟩ := h.near_eq
    have hsign := h.sign_eq
    simp only [if_true] at hpos hsign
    refine Or.inl ⟨v, hv, hpos, by omega, h.far_eq.imp id ?_⟩
    rintro ⟨u, hu, huabs, hupos⟩
    simp only [if_true] at hupos
    exact ⟨u, hu, by omega⟩
  · obtain ⟨v, hv, habs, hneg⟩ := h.near_eq
    have hsign := h.sign_eq
    simp only [Bool.false_eq_true, if_false] at hneg hsign
    refine Or.inr ⟨v, hv, hneg, by omega, h.far_eq.imp id ?_⟩
    rintro ⟨u, hu, huabs, huneg⟩
    simp only [Bool.false_eq_true, if_false] at huneg
    exact ⟨u, hu, by omega⟩

theorem toNat_le_of_toInt_le {s k : BitInt sign width} (hs : 0 ≤ s.toInt) (h : s.toInt ≤ k.toInt) :
    s.inner.toNat ≤ k.inner.toNat := by
  have hs' := BitInt.toInt_of_nonneg hs
  have hk' := BitInt.toInt_of_nonneg (hs.trans h)
  omega

theorem toNat_lt_of_toInt_lt {k : BitInt sign width} (hk : 0 ≤ k.toInt) (h : k.toInt < width) :
    k.inner.toNat < width := by
  have := BitInt.toInt_of_nonneg hk
  omega

/-- The sign of a signed value, for a number that is negative. -/
theorem signed_of_neg {x : BitInt sign width} (hx : x.toInt < 0) :
    sign = true ∧ x.inner.toInt = x.toInt := by
  cases sign with
  | true => exact ⟨rfl, by simp [BitInt.toInt]⟩
  | false => exact absurd x.minInt_le_toInt (not_le.mpr hx)

/-! ## The arithmetic shift -/

/-- The amounts end, or the start of a positive interval and the end of a negative one are shifted
all the way by the least amount; numbers of the upper half grow with the amount. -/
def AshrFits (a b : Ptr sign width) : Prop :=
  b.ub = .plusInfinity →
    (0 < a.lb.lowest → a.lb.lowest < 2 ^ (max b.lb.lowest 0).toNat ∨
      2 ^ width ≤ 2 * a.lb.lowest) ∧
    (a.ub.highest < 0 → -2 ^ (max b.lb.lowest 0).toNat ≤ a.ub.highest)

section

variable {b : Ptr sign width} {s x k : BitInt sign width}
  (hs : Amounts b s) (hsk : s.toInt ≤ k.toInt) (hk : k ∈ b)
include hs hsk hk

/-- A finite last amount: its corner, and that no amount is larger. -/
theorem ashr_last_corner {v u : BitInt sign width} {cu : Bound sign width}
    (hub : b.ub = .finite u) (hsu : s.toInt ≤ u.toInt)
    (hu : (Bound.finite v).ashr b.ub = some cu) :
    cu = .finite (v.ashr u) ∧ k.inner.toNat ≤ u.inner.toNat := by
  obtain ⟨-, hku⟩ := mem_iff.mp hk
  rw [hub, Bound.rank_finite_le_finite] at hku
  rw [hub, (Bound.ashr_finite v (hs.nonneg.trans hsu)).1] at hu
  exact ⟨(Option.some.inj hu).symm, toNat_le_of_toInt_le (hs.nonneg.trans hsk) hku⟩

/-- Below: an end and its two corners. -/
theorem ashr_corner_le {v : BitInt sign width} {cl cu : Bound sign width}
    (hv : v.toInt ≠ 0) (hvx : v.toInt ≤ x.toInt) (hl : (Bound.finite v).ashr (.finite s) = some cl)
    (hu : (Bound.finite v).ashr b.ub = some cu)
    (hfits : b.ub = .plusInfinity → 0 < v.toInt →
      v.toInt < 2 ^ s.inner.toNat ∨ v.inner.toInt < 0) :
    cl.rank ≤ (Bound.finite (x.ashr k)).rank ∨ cu.rank ≤ (Bound.finite (x.ashr k)).rank := by
  have hsk' := toNat_le_of_toInt_le hs.nonneg hsk
  have hmono := BitInt.ashr_mono hvx k
  obtain rfl := Option.some.inj ((Bound.ashr_finite v hs.nonneg).1.symm.trans hl)
  rcases hs.end_cases with hub | ⟨u, hub, hsu⟩
  · rw [hub, (Bound.ashr_plusInfinity hv).1] at hu
    obtain rfl := Option.some.inj hu
    rcases lt_or_gt_of_ne hv with hneg | hpos
    · rw [if_neg hneg.le.not_gt]
      exact Or.inr bot_le
    · refine Or.inl (Bound.rank_finite_le_finite.mpr (le_trans ?_ hmono))
      rcases lt_or_ge v.inner.toInt 0 with hupper | hlower
      · exact BitInt.ashr_mono_right hupper hsk'
      · have hsmall := (hfits hub hpos).resolve_right hlower.not_gt
        have hvalue := BitInt.toInt_eq_signed v
        rw [if_neg fun h => hlower.not_gt h.2, add_zero] at hvalue
        have hzero : (v.ashr s).toInt = 0 := by
          rw [BitInt.toInt_eq_signed, BitInt.signed_ashr, ← hvalue,
            Int.ediv_eq_zero_of_lt hpos.le hsmall]
          simp
        have hnonneg : 0 ≤ (v.ashr k).inner.toInt := (BitInt.signed_ashr_nonneg_iff v k).mpr hlower
        rw [hzero, BitInt.toInt_eq_signed, if_neg fun h => hnonneg.not_gt h.2, add_zero]
        exact hnonneg
  · obtain ⟨rfl, hku⟩ := ashr_last_corner hs hsk hk hub hsu hu
    rw [Bound.rank_finite_le_finite, Bound.rank_finite_le_finite]
    exact (BitInt.ashr_between v hsk' hku).1.imp (fun h => h.trans hmono) fun h => h.trans hmono

/-- Above: an end and its two corners. -/
theorem le_ashr_corner {v : BitInt sign width} {cl cu : Bound sign width}
    (hv : v.toInt ≠ 0) (hxv : x.toInt ≤ v.toInt) (hl : (Bound.finite v).ashr (.finite s) = some cl)
    (hu : (Bound.finite v).ashr b.ub = some cu)
    (hfits : b.ub = .plusInfinity → v.toInt < 0 → -2 ^ s.inner.toNat ≤ v.toInt) :
    (Bound.finite (x.ashr k)).rank ≤ cl.rank ∨ (Bound.finite (x.ashr k)).rank ≤ cu.rank := by
  have hsk' := toNat_le_of_toInt_le hs.nonneg hsk
  have hmono := BitInt.ashr_mono hxv k
  obtain rfl := Option.some.inj ((Bound.ashr_finite v hs.nonneg).1.symm.trans hl)
  rcases hs.end_cases with hub | ⟨u, hub, hsu⟩
  · rw [hub, (Bound.ashr_plusInfinity hv).1] at hu
    obtain rfl := Option.some.inj hu
    rcases lt_or_gt_of_ne hv with hneg | hpos
    · refine Or.inl (Bound.rank_finite_le_finite.mpr (hmono.trans ?_))
      obtain ⟨hsign, hvalue⟩ := signed_of_neg hneg
      have hsmall := hfits hub hneg
      have hsigned : ∀ j : BitInt sign width, (v.ashr j).toInt = v.toInt / 2 ^ j.inner.toNat := by
        intro j
        rw [BitInt.toInt_eq_signed, BitInt.signed_ashr, hvalue, if_neg fun h => by simp [hsign] at h,
          add_zero]
      have hpow : (0 : ℤ) < 2 ^ s.inner.toNat := by positivity
      have hone : v.toInt / 2 ^ s.inner.toNat = -1 := by
        refine le_antisymm ?_ ?_
        · have := Int.ediv_neg_of_neg_of_pos hneg hpow
          omega
        · rw [Int.le_ediv_iff_mul_le hpow]
          linarith
      rw [hsigned, hsigned, hone]
      have := Int.ediv_neg_of_neg_of_pos hneg (b := 2 ^ k.inner.toNat) (by positivity)
      omega
    · rw [if_pos hpos]
      exact Or.inr (Bound.rank_le_plusInfinity _)
  · obtain ⟨rfl, hku⟩ := ashr_last_corner hs hsk hk hub hsu hu
    rw [Bound.rank_finite_le_finite, Bound.rank_finite_le_finite]
    exact (BitInt.ashr_between v hsk' hku).2.imp (fun h => hmono.trans h) fun h => hmono.trans h

end

theorem toNat_start {b : Ptr sign width} {s : BitInt sign width} (hs : Amounts b s) :
    (max b.lb.lowest 0).toNat = s.inner.toNat := by
  have := BitInt.toInt_of_nonneg hs.nonneg
  rw [← hs.start_eq, this, Int.toNat_natCast]

theorem ashrSound_of_ashrFits {a b : Ptr sign width}
    (h : (∃ x, x ∈ a) ∧ (∃ k ∈ b, 0 ≤ k.toInt ∧ k.toInt < width) →
      a.contains (BitInt.ofInt 0) = false → AshrFits a b) :
    ShiftSound .ashr BitInt.ashr a b := by
  obtain ⟨r, hr⟩ := Option.isSome_iff_exists.mp (apply_ashr_isSome a b)
  refine ⟨r, hr, fun x hx k hk hknonneg hkw => ?_⟩
  obtain ⟨s, hs, hsk⟩ := exists_amounts hk hknonneg
  cases hzero : a.contains (BitInt.ofInt 0) with
  | true =>
      have hbottom := hs.isBottom
      obtain rfl : r = top := by
        simpa [apply, ashr, shiftRight, hx.1, hk.1, hbottom, hzero, clone, getTop, top] using
          hr.symm
      exact mem_of_isTop rfl _
  | false =>
      have hfits := h ⟨⟨x, hx⟩, k, hk, hknonneg, hkw⟩ hzero
      obtain ⟨ll, lu, ul, uu, hc⟩ := exists_shiftCorners accepts_ashr hx.1 hk.1 hs hzero
      obtain rfl := Option.some.inj (hc.apply_ashr.symm.trans hr)
      rw [mem_corners_iff]
      have hends := ends_of_mem hzero hx
      unfold AshrFits at hfits
      rw [toNat_start hs] at hfits
      constructor
      · have hfinite : ∀ v, a.lb = .finite v → v.toInt ≠ 0 → v.toInt ≤ x.toInt →
            ll.rank ≤ (Bound.finite (x.ashr k)).rank ∨ lu.rank ≤ (Bound.finite (x.ashr k)).rank := by
          intro v hv hvzero hvx
          refine ashr_corner_le hs hsk hk hvzero hvx (hv ▸ hc.ll_eq) (hv ▸ hc.lu_eq) ?_
          intro hub hpos
          have hfits := (hfits hub).1
          rw [hv] at hfits
          refine (hfits hpos).imp id fun hhalf => ?_
          have hbounds := BitInt.signed_bounds v
          have hvalue := BitInt.toInt_eq_signed v
          rw [Bound.lowest] at hhalf
          by_contra hnonneg
          rw [if_neg fun h => hnonneg h.2] at hvalue
          omega
        rcases hends with ⟨v, hv, hpos, hvx, -⟩ | ⟨v, -, hneg, hxv, hlb | ⟨u, hu, hux⟩⟩
        · rcases hfinite v hv hpos.ne' hvx with h | h
          · exact Or.inl h
          · exact Or.inr (Or.inl h)
        · have hll := hc.ll_eq
          rw [hlb, (Bound.ashr_infinite rfl (Bound.geq_zero hs.nonneg)).1] at hll
          obtain rfl := Option.some.inj hll
          exact Or.inl bot_le
        · rcases hfinite u hu (by omega) hux with h | h
          · exact Or.inl h
          · exact Or.inr (Or.inl h)
      · have hfinite : ∀ v, a.ub = .finite v → v.toInt ≠ 0 → x.toInt ≤ v.toInt →
            (Bound.finite (x.ashr k)).rank ≤ ul.rank ∨ (Bound.finite (x.ashr k)).rank ≤ uu.rank := by
          intro v hv hvzero hxv
          refine le_ashr_corner hs hsk hk hvzero hxv (hv ▸ hc.ul_eq) (hv ▸ hc.uu_eq) ?_
          intro hub hneg
          have hfits := (hfits hub).2
          rw [hv] at hfits
          exact hfits hneg
        rcases hends with ⟨v, -, hpos, hvx, hub | ⟨u, hu, hxu⟩⟩ | ⟨v, hv, hneg, hxv, -⟩
        · have hul := hc.ul_eq
          rw [hub, (Bound.ashr_infinite rfl (Bound.geq_zero hs.nonneg)).1] at hul
          obtain rfl := Option.some.inj hul
          exact Or.inr (Or.inr (Or.inl (Bound.rank_le_plusInfinity _)))
        · rcases hfinite u hu (by omega) hxu with h | h
          · exact Or.inr (Or.inr (Or.inl h))
          · exact Or.inr (Or.inr (Or.inr h))
        · rcases hfinite v hv hneg.ne hxv with h | h
          · exact Or.inr (Or.inr (Or.inl h))
          · exact Or.inr (Or.inr (Or.inr h))

/-- Where the amounts do not end, the greatest amount below the width is one of them. -/
theorem exists_last_amount {b : Ptr sign width} (hub : b.ub = .plusInfinity)
    {k : BitInt sign width} (hk : k ∈ b) (hkw : k.toInt < width) (hwidth : 0 < width) :
    ∃ l ∈ b, l.toInt = width - 1 := by
  have hmax : (width : ℤ) - 1 ≤ BitInt.maxInt sign width := by
    obtain ⟨n, rfl⟩ : ∃ n, width = n + 1 := ⟨width - 1, by omega⟩
    have hpow : (n : ℤ) < 2 ^ n := by exact_mod_cast Nat.lt_two_pow_self
    have hpow' : (2 : ℤ) ^ (n + 1) = 2 * 2 ^ n := pow_succ' 2 n
    have hmin : -2 ^ n ≤ BitInt.minInt sign (n + 1) := by
      cases sign with
      | true => rw [BitInt.minInt_true hwidth, Nat.add_sub_cancel]
      | false => simp [BitInt.minInt]
    rw [BitInt.maxInt, hpow']
    push_cast
    omega
  have hlow := ((mem_iff_lowest ⟨k, hk⟩ k).mp hk).1
  exact exists_mem_toInt_eq ⟨k, hk⟩ (by omega) (by rw [hub]; exact hmax)

theorem lb_mem {a : Ptr sign width} (ha : a.isBottom = false) {v : BitInt sign width}
    (hv : a.lb = .finite v) : v ∈ a := by
  have hle := isBottom_eq_false_iff.mp ha
  rw [hv] at hle
  exact mem_iff.mpr ⟨by rw [hv], hle⟩

theorem ub_mem {a : Ptr sign width} (ha : a.isBottom = false) {v : BitInt sign width}
    (hv : a.ub = .finite v) : v ∈ a := by
  have hle := isBottom_eq_false_iff.mp ha
  rw [hv] at hle
  exact mem_iff.mpr ⟨hle, by rw [hv]⟩

/-- A number of the lower half is shifted to zero by the last amount, and a negative one to minus
one. -/
theorem ashr_last {v l : BitInt sign width} (hwidth : 0 < width) (hl : l.toInt = width - 1) :
    (0 ≤ v.inner.toInt → (v.ashr l).toInt = 0) ∧ (v.toInt < 0 → (v.ashr l).toInt = -1) := by
  have hl' := BitInt.toInt_of_nonneg (x := l) (by omega)
  have hamount : l.inner.toNat = width - 1 := by omega
  have hpow : (2 : ℤ) ^ width = 2 * 2 ^ (width - 1) := by
    rw [← pow_succ', Nat.sub_add_cancel hwidth]
  have hbounds := BitInt.signed_bounds v
  have hpos : (0 : ℤ) < 2 ^ (width - 1) := by positivity
  constructor
  · intro hv
    rw [BitInt.toInt_eq_signed, BitInt.signed_ashr, hamount,
      Int.ediv_eq_zero_of_lt hv (by omega)]
    simp
  · intro hv
    obtain ⟨rfl, hvalue⟩ := signed_of_neg hv
    rw [BitInt.toInt_eq_signed, BitInt.signed_ashr, hamount, if_neg (by simp), add_zero]
    refine le_antisymm ?_ ?_
    · have := Int.ediv_neg_of_neg_of_pos (a := v.inner.toInt) (b := 2 ^ (width - 1))
        (by omega) hpos
      omega
    · rw [Int.le_ediv_iff_mul_le hpos]
      omega

section

variable {a b : Ptr sign width} {s l v : BitInt sign width} {ll lu ul uu : Bound sign width}
  (hc : ShiftCorners Bound.ashr a b s ll lu ul uu) (hs : Amounts b s) (hwidth : 0 < width)
  (hub : b.ub = .plusInfinity) (hlast : l.toInt = width - 1) (hbottom : a.isBottom = false)
include hc hs hwidth hub hlast hbottom

/-- Every corner of a start that the least amount leaves positive is positive, and the last amount
shifts the start to zero. -/
theorem ashr_start_not_mem (hv : a.lb = .finite v) (hstart : 2 ^ s.inner.toNat ≤ v.toInt)
    (hhalf : 2 * v.toInt < 2 ^ width) :
    v.ashr l ∉ clone (ofBounds (Bound.min₄ ll lu ul uu) (Bound.max₄ ll lu ul uu)) := by
  have hpow : (0 : ℤ) < 2 ^ s.inner.toNat := by positivity
  have hvpos : 0 < v.toInt := hpow.trans_le hstart
  have hpattern : 0 ≤ v.inner.toInt ∧ v.inner.toInt = v.toInt := by
    have hvalue := BitInt.toInt_eq_signed v
    have hbounds := BitInt.signed_bounds v
    split at hvalue <;> omega
  have hcorner : ∀ u : BitInt sign width, v.toInt ≤ u.toInt →
      ¬ (Bound.finite (u.ashr s)).rank ≤ (Bound.finite (v.ashr l)).rank := by
    intro u hu hle
    rw [Bound.rank_finite_le_finite, (ashr_last hwidth hlast).1 hpattern.1] at hle
    have hone : 1 ≤ v.inner.toInt / 2 ^ s.inner.toNat := by
      rw [Int.le_ediv_iff_mul_le hpow]
      omega
    have hmono := BitInt.ashr_mono hu s
    rw [BitInt.toInt_eq_signed (v.ashr s), BitInt.signed_ashr, if_neg (by omega), add_zero]
      at hmono
    omega
  have hinfinite : ¬ (Bound.plusInfinity : Bound sign width).rank ≤
      (Bound.finite (v.ashr l)).rank := by simp [Bound.rank]
  have hll := hc.ll_eq
  have hlu := hc.lu_eq
  rw [hv, (Bound.ashr_finite v hs.nonneg).1] at hll
  rw [hv, hub, (Bound.ashr_plusInfinity hvpos.ne').1, if_pos hvpos] at hlu
  have hupper : ¬ ul.rank ≤ (Bound.finite (v.ashr l)).rank ∧
      ¬ uu.rank ≤ (Bound.finite (v.ashr l)).rank := by
    have hul := hc.ul_eq
    have huu := hc.uu_eq
    have hle := isBottom_eq_false_iff.mp hbottom
    cases hub' : a.ub with
    | minusInfinity => simp [hv, hub', Bound.rank] at hle
    | plusInfinity =>
        rw [hub', (Bound.ashr_infinite rfl (Bound.geq_zero hs.nonneg)).1] at hul
        rw [hub', hub, (Bound.ashr_infinite rfl rfl).1] at huu
        rw [← Option.some.inj hul, ← Option.some.inj huu]
        exact ⟨hinfinite, hinfinite⟩
    | finite u =>
        rw [hv, hub', Bound.rank_finite_le_finite] at hle
        rw [hub', (Bound.ashr_finite u hs.nonneg).1] at hul
        rw [hub', hub, (Bound.ashr_plusInfinity (by omega)).1, if_pos (by omega)] at huu
        rw [← Option.some.inj hul, ← Option.some.inj huu]
        exact ⟨hcorner u hle, hinfinite⟩
  intro hmem
  rcases (mem_corners_iff.mp hmem).1 with h | h | h | h
  · exact hcorner v le_rfl (Option.some.inj hll ▸ h)
  · exact hinfinite (Option.some.inj hlu ▸ h)
  · exact hupper.1 h
  · exact hupper.2 h

/-- Every corner of an end that the least amount leaves below minus one is below it, and minus one
is where the last amount shifts the end. -/
theorem ashr_end_not_mem (hv : a.ub = .finite v) (hend : v.toInt < -2 ^ s.inner.toNat) :
    v.ashr l ∉ clone (ofBounds (Bound.min₄ ll lu ul uu) (Bound.max₄ ll lu ul uu)) := by
  have hpow : (0 : ℤ) < 2 ^ s.inner.toNat := by positivity
  have hneg : v.toInt < 0 := by omega
  obtain ⟨hsign, hvalue⟩ := signed_of_neg hneg
  have hcorner : ∀ u : BitInt sign width, u.toInt ≤ v.toInt →
      ¬ (Bound.finite (v.ashr l)).rank ≤ (Bound.finite (u.ashr s)).rank := by
    intro u hu hle
    rw [Bound.rank_finite_le_finite, (ashr_last hwidth hlast).2 hneg] at hle
    have htwo : v.inner.toInt / 2 ^ s.inner.toNat < -1 := by
      rw [Int.ediv_lt_iff_lt_mul hpow]
      omega
    have hmono := BitInt.ashr_mono hu s
    rw [BitInt.toInt_eq_signed (v.ashr s), BitInt.signed_ashr, if_neg (by simp [hsign]), add_zero]
      at hmono
    omega
  have hinfinite : ¬ (Bound.finite (v.ashr l)).rank ≤
      (Bound.minusInfinity : Bound sign width).rank := by simp [Bound.rank]
  have hul := hc.ul_eq
  have huu := hc.uu_eq
  rw [hv, (Bound.ashr_finite v hs.nonneg).1] at hul
  rw [hv, hub, (Bound.ashr_plusInfinity hneg.ne).1, if_neg hneg.le.not_gt] at huu
  have hlower : ¬ (Bound.finite (v.ashr l)).rank ≤ ll.rank ∧
      ¬ (Bound.finite (v.ashr l)).rank ≤ lu.rank := by
    have hll := hc.ll_eq
    have hlu := hc.lu_eq
    have hle := isBottom_eq_false_iff.mp hbottom
    cases hlb : a.lb with
    | plusInfinity => simp [hv, hlb, Bound.rank] at hle
    | minusInfinity =>
        rw [hlb, (Bound.ashr_infinite rfl (Bound.geq_zero hs.nonneg)).1] at hll
        rw [hlb, hub, (Bound.ashr_infinite rfl rfl).1] at hlu
        rw [← Option.some.inj hll, ← Option.some.inj hlu]
        exact ⟨hinfinite, hinfinite⟩
    | finite u =>
        rw [hv, hlb, Bound.rank_finite_le_finite] at hle
        rw [hlb, (Bound.ashr_finite u hs.nonneg).1] at hll
        rw [hlb, hub, (Bound.ashr_plusInfinity (by omega)).1, if_neg (by omega)] at hlu
        rw [← Option.some.inj hll, ← Option.some.inj hlu]
        exact ⟨hcorner u hle, hinfinite⟩
  intro hmem
  rcases (mem_corners_iff.mp hmem).2 with h | h | h | h
  · exact hlower.1 h
  · exact hlower.2 h
  · exact hcorner v le_rfl (Option.some.inj hul ▸ h)
  · exact hinfinite (Option.some.inj huu ▸ h)

end

theorem ashrFits_of_ashrSound {a b : Ptr sign width} (ha : ∃ x, x ∈ a)
    (hb : ∃ k ∈ b, 0 ≤ k.toInt ∧ k.toInt < width) (hzero : a.contains (BitInt.ofInt 0) = false)
    (h : ShiftSound .ashr BitInt.ashr a b) : AshrFits a b := by
  intro hub
  obtain ⟨k, hk, hknonneg, hkw⟩ := hb
  have hwidth : 0 < width := by omega
  obtain ⟨s, hs, -⟩ := exists_amounts hk hknonneg
  obtain ⟨l, hl, hlast⟩ := exists_last_amount hub hk hkw hwidth
  obtain ⟨x₀, hx₀⟩ := id ha
  obtain ⟨ll, lu, ul, uu, hc⟩ := exists_shiftCorners accepts_ashr hx₀.1 hk.1 hs hzero
  obtain ⟨r, hr, hmem⟩ := h
  obtain rfl := Option.some.inj (hc.apply_ashr.symm.trans hr)
  rw [toNat_start hs]
  constructor
  · intro hpos
    by_contra hbad
    rw [not_or, not_lt, not_le] at hbad
    obtain ⟨v, hv⟩ := exists_finite_of_lowest_pos hpos
    rw [hv, Bound.lowest] at hbad
    exact ashr_start_not_mem hc hs hwidth hub hlast hx₀.1 hv hbad.1 hbad.2
      (hmem v (lb_mem hx₀.1 hv) l hl (by omega) (by omega))
  · intro hneg
    by_contra hbad
    rw [not_le] at hbad
    obtain ⟨v, hv⟩ := exists_finite_of_highest_neg hneg
    rw [hv, Bound.highest] at hbad
    exact ashr_end_not_mem hc hs hwidth hub hlast hx₀.1 hv hbad
      (hmem v (ub_mem hx₀.1 hv) l hl (by omega) (by omega))

/-! ## The logical shift -/

/-- The patterns of the interval all have their top bit set. -/
def AllUpper (a : Ptr sign width) : Prop :=
  ∀ x ∈ a, x.inner.toInt < 0

/-- Members without the top bit, an end that the amount `+oo` has shifted to zero, or no amount
that moves a bit. -/
def LshrFits (a b : Ptr sign width) : Prop :=
  AllUpper a → sign = false ∧ b.ub = .plusInfinity ∨ ∀ k ∈ b, 0 < k.toInt → (width : ℤ) ≤ k.toInt

/-- The first corner is above the shifted member, over the unsigned integers and in the lower
half. -/
theorem lshr_le_corner {x u k s : BitInt sign width} (hxu : x.toInt ≤ u.toInt)
    (hlower : sign = true → 0 ≤ x.inner.toInt) (hsk : s.inner.toNat ≤ k.inner.toNat) :
    (x.lshr k).toInt ≤ (u.ashr s).toInt := by
  cases sign with
  | false => exact (BitInt.lshr_mono hxu hsk).trans (BitInt.lshr_le_ashr u s)
  | true =>
      rw [BitInt.lshr_eq_ashr (hlower rfl)]
      exact (BitInt.ashr_anti (hlower rfl) hsk).trans (BitInt.ashr_mono hxu s)

theorem lshr_nonneg {x k : BitInt sign width} (hx : 0 ≤ x.toInt) : 0 ≤ (x.lshr k).toInt := by
  rcases Nat.eq_zero_or_pos k.inner.toNat with hk | hk
  · rwa [(BitInt.lshr_zero hk x).1]
  · rw [(BitInt.toInt_lshr hk x).1]
    positivity

/-- Above a start of the lower half, and by no more than a number, nothing is shifted below the
corner of the two. -/
theorem corner_le_lshr {x v k t : BitInt sign width} (hvx : v.toInt ≤ x.toInt)
    (hv : 0 ≤ v.inner.toInt) (hx : sign = true → 0 ≤ x.inner.toInt)
    (hkt : k.inner.toNat ≤ t.inner.toNat) : (v.ashr t).toInt ≤ (x.lshr k).toInt := by
  cases sign with
  | false =>
      rw [← BitInt.lshr_eq_ashr hv]
      exact BitInt.lshr_mono hvx hkt
  | true =>
      rw [BitInt.lshr_eq_ashr (hx rfl)]
      exact (BitInt.ashr_anti hv hkt).trans (BitInt.ashr_mono hvx k)

/-- Where nothing is shifted the first corners are the ends. -/
theorem mem_corners_of_unshifted {a b : Ptr sign width} {s : BitInt sign width}
    {ll lu ul uu : Bound sign width} (hc : ShiftCorners Bound.lshr a b s ll lu ul uu)
    (hs : Amounts b s) (hszero : s.inner.toNat = 0) {x : BitInt sign width} (hx : x ∈ a) :
    x ∈ clone (ofBounds (Bound.min₄ ll lu ul uu) (Bound.max₄ ll lu ul uu)) := by
  have hgeq := Bound.geq_zero hs.nonneg
  have hll := hc.ll_eq
  have hul := hc.ul_eq
  obtain ⟨hlx, hxu⟩ := mem_iff.mp hx
  rw [mem_corners_iff]
  constructor
  · refine Or.inl ?_
    cases hlb : a.lb with
    | plusInfinity => simp [hlb, Bound.rank] at hlx
    | minusInfinity =>
        rw [hlb, (Bound.ashr_infinite rfl hgeq).2] at hll
        rw [← Option.some.inj hll]
        exact bot_le
    | finite v =>
        rw [hlb, (Bound.ashr_finite v hs.nonneg).2, (BitInt.lshr_zero hszero v).2] at hll
        rw [← Option.some.inj hll, ← hlb]
        exact hlx
  · refine Or.inr (Or.inr (Or.inl ?_))
    cases hub : a.ub with
    | minusInfinity => simp [hub, Bound.rank] at hxu
    | plusInfinity =>
        rw [hub, (Bound.ashr_infinite rfl hgeq).2] at hul
        rw [← Option.some.inj hul]
        exact Bound.rank_le_plusInfinity _
    | finite v =>
        rw [hub, (Bound.ashr_finite v hs.nonneg).2, (BitInt.lshr_zero hszero v).2] at hul
        rw [← Option.some.inj hul, ← hub]
        exact hxu

/-- Above a start of the upper half lies nothing of the lower half. -/
theorem allUpper_of_start {a : Ptr sign width} {v : BitInt sign width} (hv : a.lb = .finite v)
    (hpos : 0 < v.toInt) (hupper : v.inner.toInt < 0) : AllUpper a := by
  intro y hy
  have hvy := (mem_iff.mp hy).1
  rw [hv, Bound.rank_finite_le_finite, BitInt.toInt_le_iff_signed] at hvy
  have hvvalue := BitInt.toInt_eq_signed v
  split at hvy
  · next hsame =>
      rcases hsame with rfl | hsame
      · simp at hvvalue
        omega
      · omega
  · exact hvy

theorem allUpper_of_end {a : Ptr sign width} {v : BitInt sign width} (hv : a.ub = .finite v)
    (hneg : v.toInt < 0) : AllUpper a := by
  intro y hy
  have hyv := (mem_iff.mp hy).2
  rw [hv, Bound.rank_finite_le_finite] at hyv
  rw [(signed_of_neg (hyv.trans_lt hneg)).2]
  exact hyv.trans_lt hneg

theorem lshrSound_of_lshrFits {a b : Ptr sign width}
    (h : a.contains (BitInt.ofInt 0) = false → LshrFits a b) :
    ShiftSound .lshr BitInt.lshr a b := by
  obtain ⟨r, hr⟩ := Option.isSome_iff_exists.mp (apply_lshr_isSome a b)
  refine ⟨r, hr, fun x hx k hk hknonneg hkw => ?_⟩
  obtain ⟨s, hs, hsk⟩ := exists_amounts hk hknonneg
  cases hzero : a.contains (BitInt.ofInt 0) with
  | true =>
      have hbottom := hs.isBottom
      obtain rfl : r = top := by
        simpa [apply, lshr, shiftRight, hx.1, hk.1, hbottom, hzero, clone, getTop, top] using
          hr.symm
      exact mem_of_isTop rfl _
  | false =>
      have hfits := h hzero
      obtain ⟨ll, lu, ul, uu, hc⟩ := exists_shiftCorners accepts_lshr hx.1 hk.1 hs hzero
      obtain rfl := Option.some.inj (hc.apply_lshr.symm.trans hr)
      have hsk' := toNat_le_of_toInt_le hs.nonneg hsk
      have hgeq := Bound.geq_zero hs.nonneg
      have hll := hc.ll_eq
      have hlu := hc.lu_eq
      have hul := hc.ul_eq
      rcases Nat.eq_zero_or_pos k.inner.toNat with hzeroAmount | hamount
      · rw [(BitInt.lshr_zero hzeroAmount x).1]
        exact mem_corners_of_unshifted hc hs (by omega) hx
      · rw [mem_corners_iff]
        have hkpos : 0 < k.toInt := by
          have := BitInt.toInt_of_nonneg hknonneg
          omega
        have hupper : AllUpper a → sign = false ∧ b.ub = .plusInfinity := fun hall =>
          (hfits hall).resolve_right fun hno => absurd (hno k hk hkpos) (not_le.mpr hkw)
        -- A negative interval has the top bit set, and is not unsigned.
        rcases ends_of_mem hzero hx with ⟨v, hv, hpos, hvx, hends⟩ | ⟨v, hv, hneg, hxv, -⟩
        · have hxpos : 0 < x.toInt := hpos.trans_le hvx
          have hlower : sign = true → 0 ≤ x.inner.toInt := by
            rintro rfl
            have := BitInt.toInt_eq_signed x
            simp at this
            omega
          constructor
          · rcases hs.end_cases with hub | ⟨t, hub, hst⟩
            · rw [hv, hub, (Bound.ashr_plusInfinity hpos.ne').2] at hlu
              rw [← Option.some.inj hlu, Bound.ofInt]
              refine Or.inr (Or.inl (Bound.rank_finite_le_finite.mpr ?_))
              rw [toInt_ofInt_zero]
              exact lshr_nonneg hxpos.le
            · obtain ⟨-, hkt⟩ := mem_iff.mp hk
              rw [hub, Bound.rank_finite_le_finite] at hkt
              rw [hv, hub, (Bound.ashr_finite v (hs.nonneg.trans hst)).2] at hlu
              rw [← Option.some.inj hlu]
              refine Or.inr (Or.inl (Bound.rank_finite_le_finite.mpr ?_))
              refine corner_le_lshr hvx ?_ hlower (toNat_le_of_toInt_le hknonneg hkt)
              by_contra hvneg
              have hall := allUpper_of_start hv hpos (not_le.mp hvneg)
              exact absurd (hupper hall).2 (by rw [hub]; simp)
          · rcases hends with hinf | ⟨u, hu, hxu⟩
            · rw [hinf, (Bound.ashr_infinite rfl hgeq).2] at hul
              rw [← Option.some.inj hul]
              exact Or.inr (Or.inr (Or.inl (Bound.rank_le_plusInfinity _)))
            · rw [hu, (Bound.ashr_finite u hs.nonneg).2] at hul
              rw [← Option.some.inj hul]
              refine Or.inr (Or.inr (Or.inl (Bound.rank_finite_le_finite.mpr ?_)))
              exact lshr_le_corner hxu hlower hsk'
        · exfalso
          obtain ⟨hsign, -⟩ := signed_of_neg hneg
          rw [(hupper (allUpper_of_end hv hneg)).1] at hsign
          exact Bool.noConfusion hsign

/-- A corner of the logical shift: an infinite end, zero for the amount `+oo`, or a shifted end. -/
theorem lshr_corner {e r d : Bound sign width} (hd : e.lshr r = some d)
    (hr : r = .plusInfinity ∨ ∃ t, r = .finite t ∧ 0 ≤ t.toInt)
    (he : ∀ v, e = .finite v → v.toInt ≠ 0) :
    e.isFinite = false ∧ d = e ∨ ∃ v, e = .finite v ∧
      (r = .plusInfinity ∧ d = .ofInt 0 ∨ ∃ t, r = .finite t ∧ d = .finite (v.ashr t)) := by
  cases hfinite : e.isFinite with
  | false =>
      have hgeq : r.geq (.ofInt 0) = true := by
        rcases hr with rfl | ⟨t, rfl, ht⟩
        · rfl
        · exact Bound.geq_zero ht
      rw [(Bound.ashr_infinite hfinite hgeq).2] at hd
      exact Or.inl ⟨rfl, (Option.some.inj hd).symm⟩
  | true =>
      cases e with
      | plusInfinity | minusInfinity => simp [Bound.isFinite] at hfinite
      | finite v =>
          refine Or.inr ⟨v, rfl, ?_⟩
          rcases hr with rfl | ⟨t, rfl, ht⟩
          · rw [(Bound.ashr_plusInfinity (he v rfl)).2] at hd
            exact Or.inl ⟨rfl, (Option.some.inj hd).symm⟩
          · rw [(Bound.ashr_finite v ht).2] at hd
            exact Or.inr ⟨t, rfl, (Option.some.inj hd).symm⟩

theorem toInt_ne_zero_of_upper {v : BitInt sign width} (hv : v.inner.toInt < 0) : v.toInt ≠ 0 := by
  intro h
  have := BitInt.toInt_eq_zero_iff.mp h
  simp [this] at hv

theorem bounds_of_member {a : Ptr sign width} {x : BitInt sign width} (hx : x ∈ a) :
    (a.lb = .minusInfinity ∨ ∃ v, a.lb = .finite v) ∧
      (a.ub = .plusInfinity ∨ ∃ v, a.ub = .finite v) := by
  rw [eq_interval a] at hx
  exact bounds_of_mem ⟨x, hx⟩

/-- A signed corner of negative members is not positive. -/
theorem signed_corner_not_pos {a : Ptr true width} {x : BitInt true width} (hx : x ∈ a)
    (hall : AllUpper a) {q : BitInt true width} (hq : 0 < q.toInt) {r d : Bound true width}
    (hr : r = .plusInfinity ∨ ∃ t, r = .finite t ∧ 0 ≤ t.toInt)
    (hd : a.lb.lshr r = some d ∨ a.ub.lshr r = some d) :
    ¬ (Bound.finite q).rank ≤ d.rank := by
  have hvalue : ∀ v : BitInt true width, v.toInt = v.inner.toInt := fun v => by
    simp [BitInt.toInt]
  have hcorner : ∀ v ∈ a, ∀ d : Bound true width, (r = .plusInfinity ∧ d = .ofInt 0 ∨
      ∃ t, r = .finite t ∧ d = .finite (v.ashr t)) → ¬ (Bound.finite q).rank ≤ d.rank := by
    rintro v hv d (⟨-, rfl⟩ | ⟨t, -, rfl⟩)
    · rw [Bound.ofInt, Bound.rank_finite_le_finite, toInt_ofInt_zero]
      exact hq.not_ge
    · have hneg := (BitInt.signed_ashr_nonneg_iff v t).not.mpr (hall v hv).not_ge
      rw [Bound.rank_finite_le_finite, hvalue (v.ashr t)]
      omega
  rcases hd with hd | hd
  · rcases lshr_corner hd hr (fun v hv => toInt_ne_zero_of_upper (hall v (lb_mem hx.1 hv))) with
      ⟨hinf, rfl⟩ | ⟨v, hv, h⟩
    · rcases (bounds_of_member hx).1 with hlb | ⟨v, hlb⟩
      · simp [hlb, Bound.rank]
      · simp [hlb, Bound.isFinite] at hinf
    · exact hcorner v (lb_mem hx.1 hv) d h
  · rcases lshr_corner hd hr (fun v hv => toInt_ne_zero_of_upper (hall v (ub_mem hx.1 hv))) with
      ⟨hinf, rfl⟩ | ⟨v, hv, h⟩
    · rcases (bounds_of_member hx).2 with hub | ⟨v, hub⟩
      · -- An open end has zero below it.
        have hlow := ((mem_iff_lowest ⟨x, hx⟩ x).mp hx).1
        have hxneg := hall x hx
        rw [← hvalue] at hxneg
        obtain ⟨z, hz, hz0⟩ := exists_mem_toInt_eq ⟨x, hx⟩ (z := 0) (by omega)
          (by rw [hub]; exact maxInt_nonneg)
        have := hall z hz
        rw [← hvalue, hz0] at this
        omega
      · simp [hub, Bound.isFinite] at hinf
    · exact hcorner v (ub_mem hx.1 hv) d h

/-- An unsigned corner of the upper half, by an amount that ends, stays in the upper half. -/
theorem unsigned_corner_not_lower {a : Ptr false width} {x : BitInt false width} (hx : x ∈ a)
    (hall : AllUpper a) {q : BitInt false width} (hq : 2 * q.toInt < 2 ^ width)
    {t : BitInt false width} {d : Bound false width}
    (hd : a.lb.lshr (.finite t) = some d ∨ a.ub.lshr (.finite t) = some d) :
    ¬ d.rank ≤ (Bound.finite q).rank := by
  have hr : (Bound.finite t : Bound false width) = .plusInfinity ∨
      ∃ t', Bound.finite t = .finite t' ∧ 0 ≤ t'.toInt := Or.inr ⟨t, rfl, t.minInt_le_toInt⟩
  have hcorner : ∀ v ∈ a, ∀ d : Bound false width, (Bound.finite t = .plusInfinity ∧ d = .ofInt 0 ∨
      ∃ t', Bound.finite t = .finite t' ∧ d = .finite (v.ashr t')) →
      ¬ d.rank ≤ (Bound.finite q).rank := by
    rintro v hv d (⟨h, -⟩ | ⟨t', -, rfl⟩)
    · cases h
    · have hneg := (BitInt.signed_ashr_nonneg_iff v t').not.mpr (hall v hv).not_ge
      have hvalue := BitInt.toInt_eq_signed (v.ashr t')
      have hbounds := BitInt.signed_bounds (v.ashr t')
      rw [if_pos ⟨rfl, by omega⟩] at hvalue
      rw [Bound.rank_finite_le_finite]
      omega
  rcases hd with hd | hd
  · rcases lshr_corner hd hr (fun v hv => toInt_ne_zero_of_upper (hall v (lb_mem hx.1 hv))) with
      ⟨hinf, rfl⟩ | ⟨v, hv, h⟩
    · rcases (bounds_of_member hx).1 with hlb | ⟨v, hlb⟩
      · -- An open start is zero.
        have hhigh := ((mem_iff_lowest ⟨x, hx⟩ x).mp hx).2
        have hxnonneg : 0 ≤ x.toInt := x.minInt_le_toInt
        obtain ⟨z, hz, hz0⟩ := exists_mem_toInt_eq ⟨x, hx⟩ (z := 0)
          (by rw [hlb]; exact minInt_nonpos) (by omega)
        exact absurd hz0 (toInt_ne_zero_of_upper (hall z hz))
      · simp [hlb, Bound.isFinite] at hinf
    · exact hcorner v (lb_mem hx.1 hv) d h
  · rcases lshr_corner hd hr (fun v hv => toInt_ne_zero_of_upper (hall v (ub_mem hx.1 hv))) with
      ⟨hinf, rfl⟩ | ⟨v, hv, h⟩
    · rcases (bounds_of_member hx).2 with hub | ⟨v, hub⟩
      · simp [hub, Bound.rank]
      · simp [hub, Bound.isFinite] at hinf
    · exact hcorner v (ub_mem hx.1 hv) d h

theorem lshrFits_of_lshrSound {a b : Ptr sign width} (ha : ∃ x, x ∈ a)
    (h : ShiftSound .lshr BitInt.lshr a b) : LshrFits a b := by
  intro hall
  by_contra hbad
  rw [not_or, not_forall] at hbad
  obtain ⟨hopen, k, hbad⟩ := hbad
  rw [Classical.not_imp, Classical.not_imp, not_le] at hbad
  obtain ⟨hk, hkpos, hkw⟩ := hbad
  obtain ⟨s, hs, -⟩ := exists_amounts hk hkpos.le
  obtain ⟨x, hx⟩ := id ha
  have hzero : a.contains (BitInt.ofInt 0) = false := by
    by_contra hcontains
    have := hall (BitInt.ofInt 0) ⟨hx.1, by simpa using hcontains⟩
    simp [BitInt.ofInt] at this
  obtain ⟨ll, lu, ul, uu, hc⟩ := exists_shiftCorners accepts_lshr hx.1 hk.1 hs hzero
  obtain ⟨r, hr, hmem⟩ := h
  obtain rfl := Option.some.inj (hc.apply_lshr.symm.trans hr)
  have hmem := mem_corners_iff.mp (hmem x hx k hk hkpos.le hkw)
  have hamount : 0 < k.inner.toNat := by
    have := BitInt.toInt_of_nonneg hkpos.le
    omega
  have hvalue := (BitInt.toInt_lshr hamount x).2
  have hpos := BitInt.lshr_pos (hall x hx) hamount (toNat_lt_of_toInt_lt hkpos.le hkw)
  cases sign with
  | true =>
      have hstart : Bound.finite s = .plusInfinity ∨ ∃ t, Bound.finite s = .finite t ∧ 0 ≤ t.toInt :=
        Or.inr ⟨s, rfl, hs.nonneg⟩
      have hend : b.ub = .plusInfinity ∨ ∃ t, b.ub = .finite t ∧ 0 ≤ t.toInt := by
        rcases hs.end_cases with hub | ⟨t, ht, hst⟩
        · exact Or.inl hub
        · exact Or.inr ⟨t, ht, hs.nonneg.trans hst⟩
      rcases hmem.2 with hle | hle | hle | hle
      · exact signed_corner_not_pos hx hall hpos hstart (Or.inl hc.ll_eq) hle
      · exact signed_corner_not_pos hx hall hpos hend (Or.inl hc.lu_eq) hle
      · exact signed_corner_not_pos hx hall hpos hstart (Or.inr hc.ul_eq) hle
      · exact signed_corner_not_pos hx hall hpos hend (Or.inr hc.uu_eq) hle
  | false =>
      obtain ⟨t, ht, -⟩ := hs.end_cases.resolve_left fun hub => hopen ⟨rfl, hub⟩
      have hlu := hc.lu_eq
      have huu := hc.uu_eq
      rw [ht] at hlu huu
      rcases hmem.1 with hle | hle | hle | hle
      · exact unsigned_corner_not_lower hx hall hvalue (Or.inl hc.ll_eq) hle
      · exact unsigned_corner_not_lower hx hall hvalue (Or.inl hlu) hle
      · exact unsigned_corner_not_lower hx hall hvalue (Or.inr hc.ul_eq) hle
      · exact unsigned_corner_not_lower hx hall hvalue (Or.inr huu) hle

/-! ## The left shift -/

theorem shl_eq_ofValue (x k : BitInt sign width) :
    x.shl k = .ofValue (x.toInt * 2 ^ k.inner.toNat) := by
  have hpow : (BitInt.ofValue (2 ^ k.inner.toNat) : BitInt sign width).inner =
      BitVec.twoPow width k.inner.toNat := by
    apply BitVec.eq_of_toNat_eq
    rw [BitVec.toNat_twoPow, BitInt.ofValue, BitVec.toNat_ofInt]
    norm_cast
  have hmul : x.shl k = x * .ofValue (2 ^ k.inner.toNat) := by
    refine congrArg BitInt.mk ?_
    rw [hpow, BitVec.shiftLeft_eq', BitVec.shiftLeft_eq_mul_twoPow]
  rw [hmul]
  conv_lhs => rw [← BitInt.ofValue_toInt x]
  exact congrArg BitInt.mk (BitVec.ofInt_mul _ _).symm

/-- The powers of two between the ends of the amounts. -/
def powers (b : Ptr sign width) : Ptr sign width :=
  interval (.finite (.ofValue (2 ^ (max b.lb.lowest 0).toNat)))
    (match b.ub with
      | .finite u => .finite (.ofValue (2 ^ u.toInt.toNat))
      | _ => .plusInfinity)

/-- When the left shift is right: everything is open, or the powers of two are numbers of the type
and the product with them is right. -/
def ShlFits (a b : Ptr sign width) : Prop :=
  a.lb = .minusInfinity ∧ b.ub = .plusInfinity ∨
    (∀ k ∈ b, 0 ≤ k.toInt → k.toInt < width → 2 ^ k.toInt.toNat ≤ BitInt.maxInt sign width) ∧
      (∀ u, b.ub = .finite u → 2 ^ u.toInt.toNat ≤ BitInt.maxInt sign width) ∧
      MulFits a (powers b)

theorem apply_shl_isSome (a b : Ptr sign width) : (apply .shl a b).isSome := by
  have hshl : (shl a.toInterval b.toInterval).isSome := by
    unfold shl
    cases ha : a.isBottom with
    | true => simp
    | false =>
        cases hb : b.isBottom with
        | true => simp
        | false =>
            cases hshift : b.shift.isBottom with
            | true => simp
            | false =>
                obtain ⟨hlb, hub⟩ := shift_geq_zero hb hshift
                obtain ⟨lower, hlower⟩ := accepts_shl (.ofInt 1) _ hlb
                obtain ⟨upper, hupper⟩ := accepts_shl (.ofInt 1) _ hub
                cases b.shift.ub.isFinite with
                | true => simp [hlower, hupper]
                | false => simp [hlower]
  simpa [apply] using hshl

/-- One shifted by an amount. -/
theorem one_shl {s : BitInt sign width} (hwidth : 0 < width) (hs : 0 ≤ s.toInt) :
    (Bound.ofInt 1).shl (.finite s) = some (.finite (.ofValue (2 ^ s.toInt.toNat))) := by
  have hone : (BitInt.ofInt 1 : BitInt sign width) ≠ BitInt.ofInt 0 := by
    intro h
    have := congrArg (fun n : BitInt sign width => n.inner.toNat) h
    have hpow : 1 < 2 ^ width := Nat.one_lt_two_pow hwidth.ne'
    simp [BitInt.ofInt, Nat.mod_eq_of_lt hpow] at this
  have hvalue : (BitInt.ofInt 1 : BitInt sign width).shl s = .ofValue (2 ^ s.toInt.toNat) := by
    have hamount : s.toInt.toNat = s.inner.toNat := by
      rw [BitInt.toInt_of_nonneg hs, Int.toNat_natCast]
    have hinner : (BitInt.ofInt 1 : BitInt sign width).inner = BitVec.ofNat width 1 := by simp [BitInt.ofInt]
    refine congrArg BitInt.mk ?_
    apply BitVec.eq_of_toNat_eq
    rw [hinner, hamount, BitVec.toNat_ofInt, BitVec.shiftLeft_eq', BitVec.toNat_shiftLeft,
      BitVec.toNat_ofNat, Nat.shiftLeft_eq]
    rw [Nat.mod_eq_of_lt (Nat.one_lt_two_pow hwidth.ne'), one_mul]
    norm_cast
  have hgeq := Bound.geq_zero hs
  unfold Bound.shl
  rw [if_neg (by simp [hgeq]), if_neg (by simp [Bound.ofInt, Bound.isZero, Bound.isFinite, hone]),
    if_neg (by simp [Bound.isFinite])]
  simp only [Bound.ofInt, Bound.number, hvalue]

/-- A left shift is the product with the powers of two. -/
theorem apply_shl {a b : Ptr sign width} {s : BitInt sign width} (hwidth : 0 < width)
    (ha : a.isBottom = false) (hb : b.isBottom = false) (hs : Amounts b s) :
    apply .shl a b = apply .mul a (powers b) := by
  have hbottom := hs.isBottom
  have hshift := hs.shift_eq
  have hstart : (max b.lb.lowest 0).toNat = s.toInt.toNat := by rw [hs.start_eq]
  simp only [apply, shl, ha, hb, hshift] at hbottom ⊢
  rw [hbottom]
  simp only [ofBounds_lb, ofBounds_ub, one_shl hwidth hs.nonneg, Option.bind_eq_bind,
    Option.bind_some, Bool.or_self, Bool.false_eq_true, if_false]
  unfold powers
  rw [hstart]
  rcases hs.end_cases with hub | ⟨u, hub, hsu⟩
  · simp only [hub, Bound.isFinite]
    rfl
  · simp only [hub, Bound.isFinite, if_true, one_shl hwidth (hs.nonneg.trans hsu)]
    rfl

theorem toInt_power {n : ℕ} (h : (2 : ℤ) ^ n ≤ BitInt.maxInt sign width) :
    (BitInt.ofValue (2 ^ n) : BitInt sign width).toInt = 2 ^ n := by
  have hmin := @minInt_nonpos sign width
  have hpow : (0 : ℤ) < 2 ^ n := by positivity
  rw [BitInt.toInt_ofValue]
  exact wrap_eq_of_mem (by omega) (by rw [BitInt.maxInt] at h; omega) rfl

theorem shlSound_of_shlFits {a b : Ptr sign width}
    (h : (∃ x, x ∈ a) ∧ (∃ k ∈ b, 0 ≤ k.toInt ∧ k.toInt < width) → ShlFits a b) :
    ShiftSound .shl BitInt.shl a b := by
  obtain ⟨r, hr⟩ := Option.isSome_iff_exists.mp (apply_shl_isSome a b)
  refine ⟨r, hr, fun x hx k hk hknonneg hkw => ?_⟩
  obtain ⟨s, hs, hsk⟩ := exists_amounts hk hknonneg
  have hwidth : 0 < width := by omega
  rw [apply_shl hwidth hx.1 hk.1 hs] at hr
  rcases h ⟨⟨x, hx⟩, k, hk, hknonneg, hkw⟩ with ⟨hlb, hub⟩ | ⟨hpower, hlast, hfits⟩
  · -- The product has an open corner on each side.
    have hpowers : (powers b).lb = .finite (.ofValue (2 ^ (max b.lb.lowest 0).toNat)) ∧
        (powers b).ub = .plusInfinity := by
      unfold powers
      rw [hub]
      exact ⟨rfl, rfl⟩
    have hbottom : (powers b).isBottom = false := by
      rw [isBottom_eq_false_iff, hpowers.2]
      exact Bound.rank_le_plusInfinity _
    have happly : r = interval
        (Bound.min₄ (a.lb * (powers b).lb) (a.ub * (powers b).lb) (a.lb * (powers b).ub)
          (a.ub * (powers b).ub))
        (Bound.max₄ (a.lb * (powers b).lb) (a.ub * (powers b).lb) (a.lb * (powers b).ub)
          (a.ub * (powers b).ub)) := by
      simpa [apply, mul, hx.1, hbottom, clone] using hr.symm
    rw [happly, mem_of_corners, hlb, hpowers.1, hpowers.2]
    refine ⟨Or.inl bot_le, Or.inr (Or.inr (Or.inr ?_))⟩
    rcases (bounds_of_member hx).2 with hub' | ⟨u, hub'⟩
    · rw [hub']
      exact Bound.rank_le_plusInfinity _
    · rw [hub']
      exact Bound.rank_le_plusInfinity _
  · have hfit := hpower k hk hknonneg hkw
    have hvalue := toInt_power hfit
    have hstart : (max b.lb.lowest 0).toNat ≤ k.toInt.toNat := by
      rw [← hs.start_eq]
      exact Int.toNat_le_toNat hsk
    have hmono : ∀ {m n : ℕ}, m ≤ n → (2 : ℤ) ^ m ≤ 2 ^ n := fun h =>
      pow_le_pow_right₀ one_le_two h
    have hmem : (BitInt.ofValue (2 ^ k.toInt.toNat) : BitInt sign width) ∈ powers b := by
      refine mem_interval_iff.mpr ⟨?_, ?_⟩
      · rw [Bound.rank_finite_le_finite, hvalue, toInt_power ((hmono hstart).trans hfit)]
        exact hmono hstart
      · rcases hs.end_cases with hub | ⟨u, hub, -⟩
        · rw [hub]
          exact Bound.rank_le_plusInfinity _
        · rw [hub]
          have hku := (mem_iff.mp hk).2
          rw [hub, Bound.rank_finite_le_finite] at hku
          show (Bound.finite _).rank ≤ (Bound.finite _).rank
          rw [Bound.rank_finite_le_finite, hvalue, toInt_power (hlast u hub)]
          exact hmono (Int.toNat_le_toNat hku)
    obtain ⟨r', hr', hsound⟩ := sound_mul ⟨x, hx⟩ ⟨_, hmem⟩ hfits
    obtain rfl := Option.some.inj (hr'.symm.trans hr)
    have hproduct := hsound x hx _ hmem
    have hamount : k.toInt.toNat = k.inner.toNat := by
      rw [BitInt.toInt_of_nonneg hknonneg, Int.toNat_natCast]
    rw [shl_eq_ofValue, ← hamount, ← hvalue, ← BitInt.mul_eq_ofValue]
    exact hproduct

end Interval

end Borealis
