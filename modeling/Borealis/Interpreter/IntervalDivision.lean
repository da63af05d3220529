import Borealis.Interpreter.IntervalBits
import Borealis.Interpreter.IntervalLaws

/-!
# Interval division and remainder

`operator/` and `operator%` of `Interpreter/Domain/Numerical/Interval.hpp`.

* Division of intervals without zero takes the four quotients of the ends.  The quotient of the
  near end of the dividend by the far end of the divisor is the one closest to zero, and that of the
  far end by the near end the one farthest from it.  The latter wraps when it is the least number by
  minus one, and then another corner must stand in for it.
* The remainder is bounded by the magnitudes of the ends.  The magnitude of the least number wraps,
  and an unsigned dividend that is open below counts as negative, so that its bound is negated.
-/

namespace Borealis

open Lib

namespace BitInt

variable {sign : Bool} {width : Nat}

/-- The quotient that does not fit: the least signed value by minus one. -/
def Overflows (x y : BitInt sign width) : Prop :=
  sign = true ∧ x.toInt = minInt sign width ∧ y.toInt = -1

theorem toInt_eq_zero_iff {x : BitInt sign width} : x.toInt = 0 ↔ x.inner = 0 := by
  cases sign with
  | false => simp [toInt, ← BitVec.toNat_inj]
  | true => simp [toInt, ← BitVec.toInt_inj]

theorem exists_div {y : BitInt sign width} (hy : y.toInt ≠ 0) (x : BitInt sign width) :
    ∃ q, x.div y = some q := by
  rw [Ne, toInt_eq_zero_iff] at hy
  exact ⟨_, if_neg hy⟩

theorem exists_rem {y : BitInt sign width} (hy : y.toInt ≠ 0) (x : BitInt sign width) :
    ∃ r, x.rem y = some r := by
  rw [Ne, toInt_eq_zero_iff] at hy
  exact ⟨_, if_neg hy⟩

theorem width_pos_of_toInt_ne_zero {y : BitInt sign width} (hy : y.toInt ≠ 0) : 0 < width := by
  by_contra hzero
  obtain rfl : width = 0 := by omega
  exact hy (toInt_eq_zero_iff.mpr (Subsingleton.elim _ _))

theorem minInt_true (hwidth : 0 < width) : minInt true width = -2 ^ (width - 1) := by
  obtain ⟨n, rfl⟩ := Nat.exists_eq_add_of_le' hwidth
  rw [minInt, if_pos rfl, pow_succ, Int.mul_ediv_cancel _ two_ne_zero, Nat.add_sub_cancel]

theorem overflows_iff {x y : BitInt true width} (hwidth : 0 < width) :
    Overflows x y ↔ x.inner = BitVec.intMin width ∧ y.inner = -BitVec.ofNat width 1 := by
  rw [Overflows, minInt_true hwidth, ← BitVec.toInt_inj, ← BitVec.toInt_inj,
    BitVec.toInt_intMin_of_pos hwidth]
  simp only [toInt, if_true, true_and]
  have hone : (-BitVec.ofNat width 1).toInt = -1 := by
    rw [BitVec.neg_one_eq_allOnes, BitVec.toInt_allOnes, if_pos hwidth]
  rw [hone]

theorem toInt_div {x y q : BitInt sign width} (hq : x.div y = some q) (h : ¬ Overflows x y) :
    q.toInt = x.toInt.tdiv y.toInt := by
  unfold div at hq
  split at hq
  · exact absurd hq (Option.some_ne_none _).symm
  · next hy =>
      obtain rfl := Option.some.inj hq
      cases sign with
      | false => simp [toInt, Int.tdiv_eq_ediv_of_nonneg]
      | true =>
          have hwidth := width_pos_of_toInt_ne_zero (mt toInt_eq_zero_iff.mp hy)
          rw [overflows_iff hwidth, not_and_or] at h
          exact BitVec.toInt_sdiv_of_ne_or_ne x.inner y.inner h

/-- The quotient that does not fit wraps to the least value. -/
theorem toInt_div_of_overflows {x y q : BitInt sign width} (hq : x.div y = some q)
    (h : Overflows x y) : q.toInt = minInt sign width := by
  have hwidth : 0 < width := width_pos_of_toInt_ne_zero (y := y) (by rw [h.2.2]; decide)
  obtain ⟨rfl, -, -⟩ := id h
  obtain ⟨hx, hy⟩ := (overflows_iff hwidth).mp h
  unfold div at hq
  split at hq
  · exact absurd hq (Option.some_ne_none _).symm
  · obtain rfl := Option.some.inj hq
    rw [minInt_true hwidth]
    simp only [toInt, if_true, hx, hy, BitVec.intMin_sdiv_neg_one]
    exact BitVec.toInt_intMin_of_pos hwidth

theorem toInt_rem {x y r : BitInt sign width} (hr : x.rem y = some r) :
    r.toInt = x.toInt.tmod y.toInt := by
  unfold rem at hr
  split at hr
  · exact absurd hr (Option.some_ne_none _).symm
  · obtain rfl := Option.some.inj hr
    cases sign with
    | false => simp [toInt, Int.tmod_eq_emod_of_nonneg]
    | true => exact BitVec.toInt_srem x.inner y.inner

end BitInt

/-! ## Quotients over a box -/

section Quotient

variable {x y v t : ℤ}

/-- A smaller dividend over a greater divisor has the smaller quotient. -/
theorem natAbs_tdiv_le (hv : v.natAbs ≤ x.natAbs) (ht : y.natAbs ≤ t.natAbs) (hy : y ≠ 0) :
    (v.tdiv t).natAbs ≤ (x.tdiv y).natAbs := by
  rw [Int.natAbs_tdiv, Int.natAbs_tdiv]
  exact (Nat.div_le_div_right hv).trans
    (Nat.div_le_div_left ht (Int.natAbs_pos.mpr hy))

end Quotient

namespace Interval

variable {sign : Bool} {width : Nat}

/-- A number lies between the near end of an interval without zero, the one closer to zero, and
the far end, which may be infinite. -/
structure Spans (near far : Bound sign width) (x : ℤ) (positive : Bool) : Prop where
  sign_eq : if positive then 0 < x else x < 0
  near_eq : ∃ v, near = .finite v ∧ v.toInt.natAbs ≤ x.natAbs ∧
    if positive then 0 < v.toInt else v.toInt < 0
  far_eq : far = (if positive then .plusInfinity else .minusInfinity) ∨
    ∃ u, far = .finite u ∧ x.natAbs ≤ u.toInt.natAbs ∧
      if positive then 0 < u.toInt else u.toInt < 0

theorem spans_of_mem {a : Ptr sign width} (hzero : a.contains (BitInt.ofInt 0) = false)
    {x : BitInt sign width} (hx : x ∈ a) :
    Spans a.lb a.ub x.toInt true ∨ Spans a.ub a.lb x.toInt false := by
  obtain ⟨hlb, hub⟩ := mem_iff.mp hx
  rw [contains, Bool.and_eq_false_iff, ← Bool.not_eq_true, ← Bool.not_eq_true, Bound.leq_iff,
    Bound.leq_iff, not_le, not_le] at hzero
  rcases hzero with hpos | hneg
  · refine Or.inl ?_
    cases hv : a.lb with
    | plusInfinity => simp [hv, Bound.rank] at hlb
    | minusInfinity => simp [hv, Bound.rank] at hpos
    | finite v =>
        rw [hv, ← not_le, Bound.rank_finite_le_finite, toInt_ofInt_zero, not_le] at hpos
        rw [hv, Bound.rank_finite_le_finite] at hlb
        refine ⟨hpos.trans_le hlb, ⟨v, rfl, by omega, hpos⟩, ?_⟩
        cases hu : a.ub with
        | plusInfinity => exact Or.inl rfl
        | minusInfinity => simp [hu, Bound.rank] at hub
        | finite u =>
            rw [hu, Bound.rank_finite_le_finite] at hub
            exact Or.inr ⟨u, rfl, by omega, hpos.trans_le (hlb.trans hub)⟩
  · refine Or.inr ?_
    cases hv : a.ub with
    | plusInfinity => simp [hv, Bound.rank] at hneg
    | minusInfinity => simp [hv, Bound.rank] at hub
    | finite v =>
        rw [hv, ← not_le, Bound.rank_finite_le_finite, toInt_ofInt_zero, not_le] at hneg
        rw [hv, Bound.rank_finite_le_finite] at hub
        refine ⟨hub.trans_lt hneg, ⟨v, rfl, by omega, hneg⟩, ?_⟩
        cases hu : a.lb with
        | plusInfinity => simp [hu, Bound.rank] at hlb
        | minusInfinity => exact Or.inl rfl
        | finite u =>
            rw [hu, Bound.rank_finite_le_finite] at hlb
            exact Or.inr ⟨u, rfl, by omega, hlb.trans_lt (hub.trans_lt hneg)⟩

theorem Spans.ne_zero {near far : Bound sign width} {x : ℤ} {p : Bool} (h : Spans near far x p) :
    x ≠ 0 := by
  have := h.sign_eq
  cases p <;> simp_all <;> omega

section

variable {near far near' far' d : Bound sign width} {x y q : BitInt sign width} {p p' : Bool}
  (ha : Spans near far x.toInt p) (hb : Spans near' far' y.toInt p')
  (hq : x.div y = some q) (hfits : ¬ BitInt.Overflows x y)
include ha hb hq hfits

theorem quotient_sign : if p = p' then 0 ≤ q.toInt else q.toInt ≤ 0 := by
  have hxsign := ha.sign_eq
  have hysign := hb.sign_eq
  rw [BitInt.toInt_div hq hfits]
  cases p <;> cases p' <;> simp only [if_true, if_false, Bool.false_eq_true, reduceCtorEq]
    at hxsign hysign ⊢
  · exact Int.tdiv_nonneg_of_nonpos_of_nonpos hxsign.le hysign.le
  · have := Int.tdiv_nonneg (neg_nonneg.mpr hxsign.le) hysign.le
    rw [Int.neg_tdiv] at this
    omega
  · exact Int.tdiv_nonpos_of_nonneg_of_nonpos hxsign.le hysign.le
  · exact Int.tdiv_nonneg hxsign.le hysign.le

/-- The near end of the dividend over the far end of the divisor is closer to zero than every
quotient. -/
theorem rank_near (hd : near.div far' = some d) :
    (0 ≤ q.toInt → d.rank ≤ (Bound.finite q).rank) ∧
      (q.toInt ≤ 0 → (Bound.finite q).rank ≤ d.rank) := by
  have hq' := BitInt.toInt_div hq hfits
  obtain ⟨v, rfl, hv, hvsign⟩ := ha.near_eq
  suffices ∃ e : BitInt sign width, d = .finite e ∧ e.toInt.natAbs ≤ q.toInt.natAbs by
    obtain ⟨e, rfl, he⟩ := this
    rw [Bound.rank_finite_le_finite, Bound.rank_finite_le_finite]
    constructor <;> intro h <;> omega
  rcases hb.far_eq with rfl | ⟨t, rfl, ht, htsign⟩
  · refine ⟨BitInt.ofInt 0, ?_, by rw [toInt_ofInt_zero]; exact Nat.zero_le _⟩
    cases p' <;> simpa [Bound.div, Bound.isZero, Bound.ofInt] using hd.symm
  · have htzero : t.toInt ≠ 0 := by cases p' <;> simp_all <;> omega
    obtain ⟨e, he⟩ := BitInt.exists_div htzero v
    have hisZero : (Bound.finite t).isZero = false := by
      simp only [Bound.isZero, beq_eq_false_iff_ne]
      rintro rfl
      exact htzero toInt_ofInt_zero
    have hde : d = .finite e := by
      simpa [Bound.div, hisZero, he] using hd.symm
    refine ⟨e, hde, ?_⟩
    rw [BitInt.toInt_div he, hq']
    · exact natAbs_tdiv_le hv ht hb.ne_zero
    · rintro ⟨hsign, hmin, hone⟩
      refine hfits ⟨hsign, ?_, ?_⟩
      · have := x.minInt_le_toInt
        have hxsign := ha.sign_eq
        have hminNeg : BitInt.minInt sign width ≤ 0 := by
          subst hsign
          simp only [BitInt.minInt, if_true]
          have := BitInt.two_pow_pos width
          omega
        cases p <;> simp_all <;> omega
      · have hysign := hb.sign_eq
        cases p' <;> simp_all
        omega

/-- The far end of the dividend over the near end of the divisor is farther from zero than every
quotient, unless it does not fit. -/
theorem rank_far (hd : far.div near' = some d)
    (hends : ∀ u s, far = .finite u → near' = .finite s → ¬ BitInt.Overflows u s) :
    if p = p' then (Bound.finite q).rank ≤ d.rank else d.rank ≤ (Bound.finite q).rank := by
  have hq' := BitInt.toInt_div hq hfits
  obtain ⟨s, rfl, hs, hssign⟩ := hb.near_eq
  have hszero : s.toInt ≠ 0 := by cases p' <;> simp_all <;> omega
  have hisZero : (Bound.finite s).isZero = false := by
    simp only [Bound.isZero, beq_eq_false_iff_ne]
    rintro rfl
    exact hszero toInt_ofInt_zero
  have hgeq : s.geq (BitInt.ofInt 0) = p' := by
    rw [Bool.eq_iff_iff, BitInt.geq_iff, toInt_ofInt_zero]
    cases p' <;> simp_all
    omega
  rcases ha.far_eq with rfl | ⟨u, rfl, hu, husign⟩
  · have hinf : d = if p' then (if p then .plusInfinity else .minusInfinity)
        else -(if p then .plusInfinity else .minusInfinity) := by
      cases p <;> simpa [Bound.div, hisZero, hgeq] using hd.symm
    rw [hinf]
    cases p <;> cases p' <;> first | exact bot_le | exact Bound.rank_le_plusInfinity _
  · obtain ⟨e, he⟩ := BitInt.exists_div hszero u
    have hde : d = .finite e := by
      simpa [Bound.div, hisZero, he] using hd.symm
    have he' := BitInt.toInt_div he (hends u s rfl rfl)
    have habs : q.toInt.natAbs ≤ e.toInt.natAbs := by
      rw [he', hq']
      exact natAbs_tdiv_le hu hs hszero
    have hxsign := ha.sign_eq
    have hysign := hb.sign_eq
    rw [hde, Bound.rank_finite_le_finite, Bound.rank_finite_le_finite]
    cases p <;> cases p' <;> simp only [if_true, if_false, Bool.false_eq_true, reduceCtorEq]
      at husign hssign hxsign hysign ⊢
    · have := Int.tdiv_nonneg_of_nonpos_of_nonpos husign.le hssign.le
      omega
    · have := Int.tdiv_nonneg (neg_nonneg.mpr husign.le) hssign.le
      rw [Int.neg_tdiv] at this
      omega
    · have := Int.tdiv_nonpos_of_nonneg_of_nonpos husign.le hssign.le
      omega
    · have := Int.tdiv_nonneg husign.le hssign.le
      omega

/-- The quotient lies between the two corners. -/
theorem rank_corners {dn df : Bound sign width} (hn : near.div far' = some dn)
    (hf : far.div near' = some df)
    (hends : ∀ u s, far = .finite u → near' = .finite s → ¬ BitInt.Overflows u s) :
    if p = p' then dn.rank ≤ (Bound.finite q).rank ∧ (Bound.finite q).rank ≤ df.rank
    else df.rank ≤ (Bound.finite q).rank ∧ (Bound.finite q).rank ≤ dn.rank := by
  have hnear := rank_near ha hb hq hfits hn
  have hfar := rank_far ha hb hq hfits hf hends
  have hsign := quotient_sign ha hb hq hfits
  split
  · next h =>
      rw [if_pos h] at hfar hsign
      exact ⟨hnear.1 hsign, hfar⟩
  · next h =>
      rw [if_neg h] at hfar hsign
      exact ⟨hfar, hnear.2 hsign⟩

end

/-! ## Division -/

/-- `apply(DIV, b)` of `a` returns, and has every quotient of members that fits. -/
def DivSound (a b : Ptr sign width) : Prop :=
  ∃ r, apply .div a b = some r ∧ ∀ x ∈ a, ∀ y ∈ b, y.toInt ≠ 0 → ¬ BitInt.Overflows x y →
    ∃ q, x.div y = some q ∧ q ∈ r

/-- The corner of the least value and minus one, that bounds the quotients from above, wraps. -/
def CornerOverflows (a b : Ptr sign width) : Prop :=
  ∃ u t, a.lb = .finite u ∧ b.ub = .finite t ∧ BitInt.Overflows u t ∧ a.ub.highest < 0

/-- Another corner stands in for the one that wraps. -/
def DivFits (a b : Ptr sign width) : Prop :=
  CornerOverflows a b → a.ub.highest = BitInt.minInt sign width + 1 ∨
    a.ub.highest = BitInt.minInt sign width ∧
      ((∃ s, b.lb = .finite s ∧ -2 ≤ s.toInt) ∨ width = 1)

theorem exists_bound_div {r : Bound sign width} (h : r.isZero = false) (p : Bound sign width) :
    ∃ d, p.div r = some d := by
  unfold Bound.div
  rw [if_neg (by simp [h])]
  cases p <;> cases r <;> simp only [Option.some.injEq, exists_eq']
  next v s =>
    have hs : s.toInt ≠ 0 := by
      intro hs
      have : s = BitInt.ofInt 0 := BitInt.toInt_injective (hs.trans toInt_ofInt_zero.symm)
      simp [Bound.isZero, this] at h
    obtain ⟨e, he⟩ := BitInt.exists_div hs v
    exact ⟨.finite e, by rw [he]; rfl⟩

theorem eq_of_finite_div {v t : BitInt sign width} {d : Bound sign width} (ht : t.toInt ≠ 0)
    (hd : (Bound.finite v).div (.finite t) = some d) : ∃ e, d = .finite e ∧ v.div t = some e := by
  obtain ⟨e, he⟩ := BitInt.exists_div ht v
  have hisZero : (Bound.finite t).isZero = false := by
    simp only [Bound.isZero, beq_eq_false_iff_ne]
    rintro rfl
    exact ht toInt_ofInt_zero
  exact ⟨e, by simpa [Bound.div, hisZero, he] using hd.symm, he⟩

/-- The ends of an interval without zero are not zero. -/
theorem isZero_ends {b : Ptr sign width} (hb : b.isBottom = false)
    (hzero : b.contains (BitInt.ofInt 0) = false) : b.lb.isZero = false ∧ b.ub.isZero = false := by
  have hle := isBottom_eq_false_iff.mp hb
  have hcontains : ¬ (b.lb.rank ≤ (Bound.finite (BitInt.ofInt 0 : BitInt sign width)).rank ∧
      (Bound.finite (BitInt.ofInt 0 : BitInt sign width)).rank ≤ b.ub.rank) := by
    rw [← Bound.leq_iff, ← Bound.leq_iff, ← Bool.and_eq_true]
    exact Bool.not_eq_true _ ▸ hzero
  constructor
  · cases hv : b.lb with
    | plusInfinity | minusInfinity => rfl
    | finite v =>
        rw [Bound.isZero, beq_eq_false_iff_ne]
        rintro rfl
        rw [hv] at hle hcontains
        exact hcontains ⟨le_rfl, hle⟩
  · cases hv : b.ub with
    | plusInfinity | minusInfinity => rfl
    | finite v =>
        rw [Bound.isZero, beq_eq_false_iff_ne]
        rintro rfl
        rw [hv] at hle hcontains
        exact hcontains ⟨hle, le_rfl⟩

/-- The four corners of a division. -/
structure Corners (a b : Ptr sign width) (ll ul lu uu : Bound sign width) : Prop where
  ll_eq : a.lb.div b.lb = some ll
  ul_eq : a.ub.div b.lb = some ul
  lu_eq : a.lb.div b.ub = some lu
  uu_eq : a.ub.div b.ub = some uu
  apply_eq : apply .div a b =
    some (interval (Bound.min₄ ll ul lu uu) (Bound.max₄ ll ul lu uu))

theorem exists_corners {a b : Ptr sign width} (ha : a.isBottom = false) (hb : b.isBottom = false)
    (hzeroB : b.contains (BitInt.ofInt 0) = false) (hzeroA : a.contains (BitInt.ofInt 0) = false) :
    ∃ ll ul lu uu, Corners a b ll ul lu uu := by
  obtain ⟨hlb, hub⟩ := isZero_ends hb hzeroB
  obtain ⟨ll, hll⟩ := exists_bound_div hlb a.lb
  obtain ⟨ul, hul⟩ := exists_bound_div hlb a.ub
  obtain ⟨lu, hlu⟩ := exists_bound_div hub a.lb
  obtain ⟨uu, huu⟩ := exists_bound_div hub a.ub
  refine ⟨ll, ul, lu, uu, hll, hul, hlu, huu, ?_⟩
  simp [apply, div, ha, hb, hzeroA, hzeroB, hll, hul, hlu, huu, clone]

theorem mem_of_corners {ll ul lu uu : Bound sign width} {q : BitInt sign width} :
    q ∈ interval (Bound.min₄ ll ul lu uu) (Bound.max₄ ll ul lu uu) ↔
      (ll.rank ≤ (Bound.finite q).rank ∨ ul.rank ≤ (Bound.finite q).rank ∨
        lu.rank ≤ (Bound.finite q).rank ∨ uu.rank ≤ (Bound.finite q).rank) ∧
      ((Bound.finite q).rank ≤ ll.rank ∨ (Bound.finite q).rank ≤ ul.rank ∨
        (Bound.finite q).rank ≤ lu.rank ∨ (Bound.finite q).rank ≤ uu.rank) := by
  rw [mem_interval_iff]
  simp only [Bound.min₄, Bound.max₄, Bound.rank_min, Bound.rank_max, min_le_iff, le_max_iff]

/-- Division always returns. -/
theorem apply_div_isSome (a b : Ptr sign width) : (apply .div a b).isSome := by
  cases ha : a.isBottom with
  | true => simp [apply, div, ha]
  | false =>
      cases hb : b.isBottom with
      | true => simp [apply, div, hb]
      | false =>
          cases hzeroB : b.contains (BitInt.ofInt 0) with
          | true => simp [apply, div, ha, hb, hzeroB]
          | false =>
              cases hzeroA : a.contains (BitInt.ofInt 0) with
              | true => simp [apply, div, ha, hb, hzeroA, hzeroB]
              | false =>
                  obtain ⟨ll, ul, lu, uu, h⟩ := exists_corners ha hb hzeroB hzeroA
                  rw [h.apply_eq]
                  rfl

/-- The numbers of a signedness and width are symmetric but for the least signed one. -/
theorem minInt_add_maxInt (hsign : sign = true) (hwidth : 0 < width) :
    BitInt.minInt sign width = -BitInt.maxInt sign width - 1 := by
  obtain ⟨n, hn⟩ : ∃ n, width = n + 1 := ⟨width - 1, by omega⟩
  rw [BitInt.maxInt, hsign, BitInt.minInt_true hwidth, hn, pow_succ, Nat.add_sub_cancel]
  ring

/-- The value after the least one by minus one is the greatest. -/
theorem div_next {v t e : BitInt sign width} (hsign : sign = true) (hone : t.toInt = -1)
    (hnext : v.toInt = BitInt.minInt sign width + 1) (he : v.div t = some e) :
    e.toInt = BitInt.maxInt sign width := by
  have hnot : ¬ BitInt.Overflows v t := by
    rintro ⟨-, hvmin, -⟩
    omega
  have hwidth := BitInt.width_pos_of_toInt_ne_zero (y := t) (by omega)
  have hsum := minInt_add_maxInt hsign hwidth
  rw [BitInt.toInt_div he hnot, hone, Int.tdiv_neg, Int.tdiv_one]
  omega

/-- Far ends of one sign each do not overflow, unless both are negative. -/
theorem not_overflows_of_spans {near far near' far' : Bound sign width} {x y : ℤ} {p p' : Bool}
    (ha : Spans near far x p) (hb : Spans near' far' y p') (h : p = true ∨ p' = true) :
    ∀ u s, far = .finite u → near' = .finite s → ¬ BitInt.Overflows u s := by
  rintro u s rfl rfl ⟨hsign, hmin, hone⟩
  rcases h with rfl | rfl
  · rcases ha.far_eq with h | ⟨u', h, -, hu⟩
    · cases h
    · obtain rfl := Bound.finite.inj h
      have hminNeg : BitInt.minInt sign width ≤ 0 := minInt_nonpos
      rw [if_pos rfl] at hu
      omega
  · obtain ⟨s', h, -, hs⟩ := hb.near_eq
    obtain rfl := Bound.finite.inj h
    rw [if_pos rfl] at hs
    omega

section

variable {a b : Ptr sign width} {x y q : BitInt sign width} {ll ul lu uu : Bound sign width}
  (hx : x ∈ a) (hy : y ∈ b) (hq : x.div y = some q) (hfits : ¬ BitInt.Overflows x y)
  (hzeroA : a.contains (BitInt.ofInt 0) = false) (hzeroB : b.contains (BitInt.ofInt 0) = false)
  (hc : Corners a b ll ul lu uu)
include hx hy hq hfits hzeroA hzeroB hc

/-- Where no corner wraps the quotient is between the corners. -/
theorem mem_of_not_cornerOverflows (h : ¬ CornerOverflows a b) :
    q ∈ interval (Bound.min₄ ll ul lu uu) (Bound.max₄ ll ul lu uu) := by
  rw [mem_of_corners]
  rcases spans_of_mem hzeroA hx with ha | ha
  · rcases spans_of_mem hzeroB hy with hb | hb
    · have := rank_corners ha hb hq hfits hc.lu_eq hc.ul_eq
        (not_overflows_of_spans ha hb (Or.inl rfl))
      exact ⟨Or.inr (Or.inr (Or.inl this.1)), Or.inr (Or.inl this.2)⟩
    · have := rank_corners ha hb hq hfits hc.ll_eq hc.uu_eq
        (not_overflows_of_spans ha hb (Or.inl rfl))
      exact ⟨Or.inr (Or.inr (Or.inr this.1)), Or.inl this.2⟩
  · rcases spans_of_mem hzeroB hy with hb | hb
    · have := rank_corners ha hb hq hfits hc.uu_eq hc.ll_eq
        (not_overflows_of_spans ha hb (Or.inr rfl))
      exact ⟨Or.inl this.1, Or.inr (Or.inr (Or.inr this.2))⟩
    · have hends : ∀ u s, a.lb = .finite u → b.ub = .finite s → ¬ BitInt.Overflows u s := by
        intro u s hu hs hoverflows
        obtain ⟨v, hv, -, hneg⟩ := ha.near_eq
        refine h ⟨u, s, hu, hs, hoverflows, ?_⟩
        rw [hv]
        exact hneg
      have := rank_corners ha hb hq hfits hc.ul_eq hc.lu_eq hends
      exact ⟨Or.inr (Or.inl this.1), Or.inr (Or.inr (Or.inl this.2))⟩

/-- Another corner bounds the quotients when the greatest one wraps. -/
theorem mem_of_divFits (h : DivFits a b) :
    q ∈ interval (Bound.min₄ ll ul lu uu) (Bound.max₄ ll ul lu uu) := by
  by_cases hoverflows : CornerOverflows a b
  · have hcond := h hoverflows
    obtain ⟨u, t, hu, ht, ⟨hsign, hmin, hone⟩, hneg⟩ := hoverflows
    obtain ⟨hlx, hxu⟩ := (mem_iff_lowest ⟨x, hx⟩ x).mp hx
    obtain ⟨hly, hyu⟩ := (mem_iff_lowest ⟨y, hy⟩ y).mp hy
    have hyt : y.toInt ≤ -1 := by
      rw [ht] at hyu
      exact hyu.trans hone.le
    have hbspans : Spans b.ub b.lb y.toInt false := by
      rcases spans_of_mem hzeroB hy with hb | hb
      · have := hb.sign_eq
        rw [if_pos rfl] at this
        omega
      · exact hb
    have haspans : Spans a.ub a.lb x.toInt false := by
      rcases spans_of_mem hzeroA hx with ha | ha
      · have := ha.sign_eq
        rw [if_pos rfl] at this
        omega
      · exact ha
    obtain ⟨v, hv, -, -⟩ := haspans.near_eq
    have hnear := (rank_near haspans hbspans hq hfits hc.ul_eq).1
      (by simpa using quotient_sign haspans hbspans hq hfits)
    rw [mem_of_corners]
    refine ⟨Or.inr (Or.inl hnear), ?_⟩
    rcases hcond with hnext | ⟨hleast, hdivisor⟩
    · -- The next corner is the greatest value.
      refine Or.inr (Or.inr (Or.inr ?_))
      have huu := hc.uu_eq
      rw [hv, ht] at huu
      rw [hv] at hnext
      have hisZero : (Bound.finite t).isZero = false := by
        rw [← ht]
        exact (isZero_ends hy.1 hzeroB).2
      obtain ⟨e, he⟩ := BitInt.exists_div (y := t) (by omega) v
      have : uu = .finite e := by simpa [Bound.div, hisZero, he] using huu.symm
      rw [this, Bound.rank_finite_le_finite, div_next hsign hone hnext he]
      exact q.toInt_le_maxInt
    · have hxmin : x.toInt = BitInt.minInt sign width :=
        le_antisymm (hxu.trans hleast.le) x.minInt_le_toInt
      have hxlb : a.lb = .finite x := by
        rw [hu, BitInt.toInt_injective (hmin.trans hxmin.symm)]
      rcases hdivisor with ⟨s, hs, hs2⟩ | hwidth
      · have hy2 : y.toInt = -2 := by
          rw [hs] at hly
          have : y.toInt ≠ -1 := fun hy1 => hfits ⟨hsign, hxmin, hy1⟩
          rw [Bound.lowest] at hly
          omega
        have hys : b.lb = .finite y := by
          rw [hs] at hly ⊢
          rw [Bound.lowest] at hly
          exact congrArg Bound.finite (BitInt.toInt_injective (by omega))
        have hll := hc.ll_eq
        have hisZero : (Bound.finite y).isZero = false := by
          rw [← hys]
          exact (isZero_ends hy.1 hzeroB).1
        rw [hxlb, hys] at hll
        have : ll = .finite q := by simpa [Bound.div, hisZero, hq] using hll.symm
        exact Or.inl (this ▸ le_rfl)
      · exfalso
        subst hwidth
        refine hfits ⟨hsign, hxmin, ?_⟩
        have := y.minInt_le_toInt
        simp only [BitInt.minInt, hsign, if_true] at this
        omega
  · exact mem_of_not_cornerOverflows hx hy hq hfits hzeroA hzeroB hc hoverflows

end

theorem divSound_of_divFits {a b : Ptr sign width} (h : (∃ x, x ∈ a) ∧ (∃ y, y ∈ b) → DivFits a b) :
    DivSound a b := by
  obtain ⟨r, hr⟩ := Option.isSome_iff_exists.mp (apply_div_isSome a b)
  refine ⟨r, hr, fun x hx y hy hyzero hfits => ?_⟩
  obtain ⟨q, hq⟩ := BitInt.exists_div hyzero x
  refine ⟨q, hq, ?_⟩
  cases hzeroB : b.contains (BitInt.ofInt 0) with
  | true =>
      obtain rfl : r = top := by
        simpa [apply, div, hx.1, hy.1, hzeroB, clone, getTop, top] using hr.symm
      exact mem_of_isTop rfl q
  | false =>
      cases hzeroA : a.contains (BitInt.ofInt 0) with
      | true =>
          obtain rfl : r = top := by
            simpa [apply, div, hx.1, hy.1, hzeroA, hzeroB, clone, getTop, top] using hr.symm
          exact mem_of_isTop rfl q
      | false =>
          obtain ⟨ll, ul, lu, uu, hc⟩ := exists_corners hx.1 hy.1 hzeroB hzeroA
          obtain rfl := Option.some.inj (hc.apply_eq.symm.trans hr)
          exact mem_of_divFits hx hy hq hfits hzeroA hzeroB hc (h ⟨⟨x, hx⟩, ⟨y, hy⟩⟩)

/-- What a corner with a negative divisor is: zero, a quotient that wraps, or one that fits. -/
def CornerValue (v : BitInt sign width) (r : Bound sign width) (e : BitInt sign width) : Prop :=
  e.toInt = 0 ∨ ∃ s, r = .finite s ∧ s.toInt < 0 ∧
    (BitInt.Overflows v s ∧ e.toInt = BitInt.minInt sign width ∨
      ¬ BitInt.Overflows v s ∧ e.toInt = v.toInt.tdiv s.toInt)

theorem corner_of_negative {v : BitInt sign width} {r d : Bound sign width}
    (hd : (Bound.finite v).div r = some d)
    (hr : r = .minusInfinity ∨ ∃ s, r = .finite s ∧ s.toInt < 0) :
    ∃ e, d = .finite e ∧ CornerValue v r e := by
  rcases hr with rfl | ⟨s, rfl, hs⟩
  · exact ⟨BitInt.ofInt 0, by simpa [Bound.div, Bound.isZero, Bound.ofInt] using hd.symm,
      Or.inl toInt_ofInt_zero⟩
  · obtain ⟨e, rfl, he⟩ := eq_of_finite_div hs.ne hd
    refine ⟨e, rfl, Or.inr ⟨s, rfl, hs, ?_⟩⟩
    by_cases h : BitInt.Overflows v s
    · exact Or.inl ⟨h, BitInt.toInt_div_of_overflows he h⟩
    · exact Or.inr ⟨h, BitInt.toInt_div he h⟩

section

variable {M : ℤ} {v e : BitInt sign width} {r : Bound sign width}
  (hminInt : BitInt.minInt sign width = -M) (hsign : sign = true)
include hminInt hsign

/-- The least value by `-3` or less is below its half. -/
theorem corner_lt_half (hM : 2 ≤ M) (heven : M % 2 = 0) (hv : v.toInt = -M)
    (hr : ∀ s, r = .finite s → s.toInt ≤ -3 ∨ s.toInt = -1) (h : CornerValue v r e) :
    e.toInt < M / 2 := by
  rcases h with h | ⟨s, hs, hneg, ⟨-, h⟩ | ⟨hfits, h⟩⟩
  · omega
  · omega
  · have hs3 : s.toInt ≤ -3 :=
      (hr s hs).resolve_right fun h1 => hfits ⟨hsign, hv.trans hminInt.symm, h1⟩
    have habs := Int.natAbs_tdiv v.toInt s.toInt
    rw [← h] at habs
    change _ = v.toInt.natAbs / s.toInt.natAbs at habs
    have hthird : v.toInt.natAbs / s.toInt.natAbs ≤ v.toInt.natAbs / 3 :=
      Nat.div_le_div_left (by omega) (by omega)
    have hsmin := s.minInt_le_toInt
    omega

/-- A corner that is not the one of the value after the least one is below the greatest value. -/
theorem corner_lt_greatest (hM : 3 ≤ M) (hv : v.toInt = -M ∨ -M + 2 ≤ v.toInt ∧ v.toInt < 0)
    (h : CornerValue v r e) : e.toInt < M - 1 := by
  rcases h with h | ⟨s, hs, hneg, ⟨-, h⟩ | ⟨hfits, h⟩⟩
  · omega
  · omega
  · have habs := Int.natAbs_tdiv v.toInt s.toInt
    rw [← h] at habs
    change _ = v.toInt.natAbs / s.toInt.natAbs at habs
    rcases hv with hv | hv
    · have hs1 : s.toInt ≠ -1 := fun h1 => hfits ⟨hsign, hv.trans hminInt.symm, h1⟩
      have hhalf : v.toInt.natAbs / s.toInt.natAbs ≤ v.toInt.natAbs / 2 :=
        Nat.div_le_div_left (by omega) (by omega)
      omega
    · have hself := Nat.div_le_self v.toInt.natAbs s.toInt.natAbs
      omega

end

theorem rank_lt_of_corners {ll ul lu uu q : BitInt sign width} (hll : ll.toInt < q.toInt)
    (hul : ul.toInt < q.toInt) (hlu : lu.toInt < q.toInt) (huu : uu.toInt < q.toInt)
    {d : Bound sign width}
    (hd : d ∈ [Bound.finite ll, Bound.finite ul, Bound.finite lu, Bound.finite uu]) :
    d.rank < (Bound.finite q).rank := by
  simp only [List.mem_cons, List.not_mem_nil, or_false] at hd
  rw [← not_le]
  rcases hd with rfl | rfl | rfl | rfl
  all_goals rwa [Bound.rank_finite_le_finite, not_le]

/-- Where the greatest corner wraps and no other stands in for it, a quotient lies above all
corners. -/
theorem exists_quotient_above {a b : Ptr sign width} (ha : ∃ x, x ∈ a) (hb : ∃ y, y ∈ b)
    {ll ul lu uu : Bound sign width} (hc : Corners a b ll ul lu uu) (h : ¬ DivFits a b) :
    ∃ x ∈ a, ∃ y ∈ b, y.toInt ≠ 0 ∧ ¬ BitInt.Overflows x y ∧ ∀ q, x.div y = some q →
      ∀ d ∈ [ll, ul, lu, uu], d.rank < (Bound.finite q).rank := by
  rw [DivFits, Classical.not_imp, not_or, not_and, not_or] at h
  obtain ⟨⟨u, t, hu, ht, ⟨hsign, hmin, hone⟩, hneg⟩, hnext, hdivisor⟩ := h
  have hwidth := BitInt.width_pos_of_toInt_ne_zero (y := t) (by omega)
  have hminInt : BitInt.minInt sign width = -2 ^ (width - 1) := by
    rw [hsign, BitInt.minInt_true hwidth]
  have hpow : (0 : ℤ) < 2 ^ (width - 1) := by positivity
  have heven : width ≠ 1 → (2 : ℤ) ≤ 2 ^ (width - 1) ∧ (2 : ℤ) ^ (width - 1) % 2 = 0 := by
    intro hne
    have hsucc : (2 : ℤ) ^ (width - 1) = 2 * 2 ^ (width - 2) := by
      rw [← pow_succ', show width - 2 + 1 = width - 1 by omega]
    have : (0 : ℤ) < 2 ^ (width - 2) := by positivity
    omega
  generalize (2 : ℤ) ^ (width - 1) = M at *
  rw [hminInt] at hmin hnext hdivisor
  obtain ⟨v, hv⟩ := exists_finite_of_highest_neg hneg
  rw [hv] at hneg hnext hdivisor
  simp only [Bound.highest] at hneg hnext hdivisor
  have hvmin := v.minInt_le_toInt
  rw [hminInt] at hvmin
  obtain ⟨hla, hua⟩ : a.lb.lowest = -M ∧ a.ub.highest = v.toInt := by
    rw [hu, hv]
    exact ⟨hmin, rfl⟩
  have hub : b.ub.highest = -1 := by
    rw [ht]
    exact hone
  have hlb : b.lb = .minusInfinity ∨ ∃ s, b.lb = .finite s ∧ s.toInt < 0 := by
    obtain ⟨y, hy⟩ := hb
    rw [eq_interval b] at hy
    rcases (bounds_of_mem ⟨y, hy⟩).1 with h | ⟨s, hs⟩
    · exact Or.inl h
    · have := lowest_le_highest ⟨y, hy⟩
      rw [hub, hs, Bound.lowest] at this
      exact Or.inr ⟨s, hs, by omega⟩
  have hub' : b.ub = .minusInfinity ∨ ∃ s, b.ub = .finite s ∧ s.toInt < 0 :=
    Or.inr ⟨t, ht, by omega⟩
  obtain ⟨ell, rfl, hll⟩ := corner_of_negative (hu ▸ hc.ll_eq) hlb
  obtain ⟨eul, rfl, hul⟩ := corner_of_negative (hv ▸ hc.ul_eq) hlb
  obtain ⟨elu, rfl, hlu⟩ := corner_of_negative (hu ▸ hc.lu_eq) hub'
  obtain ⟨euu, rfl, huu⟩ := corner_of_negative (hv ▸ hc.uu_eq) hub'
  have hle : b.lb.lowest ≤ -1 := by
    obtain ⟨y, hy⟩ := hb
    have := (mem_iff_lowest ⟨y, hy⟩ y).mp hy
    omega
  by_cases hleast : v.toInt = -M
  · -- The dividend is the least value; it is divided by `-2`.
    have hlow : b.lb.lowest ≤ -3 ∨ b.lb = .minusInfinity := by
      rcases hlb with h | ⟨s, hs, -⟩
      · exact Or.inr h
      · refine Or.inl ?_
        have hs2 : ¬ -2 ≤ s.toInt := fun h => hdivisor hleast |>.1 ⟨s, hs, h⟩
        rw [hs, Bound.lowest]
        omega
    have htwo := heven (hdivisor hleast).2
    have hlow2 : b.lb.lowest ≤ -2 := by
      rcases hlow with h | h
      · omega
      · simp only [h, Bound.lowest, hminInt]
        omega
    obtain ⟨x, hx, hx'⟩ := exists_mem_toInt_eq ha hla.le (by omega)
    obtain ⟨y, hy, hy'⟩ := exists_mem_toInt_eq hb hlow2 (by omega)
    have hfits : ¬ BitInt.Overflows x y := fun h => by
      have := h.2.2
      omega
    refine ⟨x, hx, y, hy, by omega, hfits, fun q hq d hd => ?_⟩
    have hq' : q.toInt = M / 2 := by
      rw [BitInt.toInt_div hq hfits, hx', hy', Int.neg_tdiv_neg, Int.tdiv_eq_ediv_of_nonneg hpow.le]
    -- A greater divisor gives a smaller quotient, and `-1` one that wraps.
    have hlb3 : ∀ s, b.lb = .finite s → s.toInt ≤ -3 ∨ s.toInt = -1 := fun s hs => by
      rcases hlow with h | h
      · rw [hs] at h
        exact Or.inl h
      · rw [h] at hs
        cases hs
    have hub1 : ∀ s, b.ub = .finite s → s.toInt ≤ -3 ∨ s.toInt = -1 := fun s hs => by
      rw [ht] at hs
      cases hs
      exact Or.inr hone
    refine rank_lt_of_corners ?_ ?_ ?_ ?_ hd <;> rw [hq']
    · exact corner_lt_half hminInt hsign htwo.1 htwo.2 hmin hlb3 hll
    · exact corner_lt_half hminInt hsign htwo.1 htwo.2 hleast hlb3 hul
    · exact corner_lt_half hminInt hsign htwo.1 htwo.2 hmin hub1 hlu
    · exact corner_lt_half hminInt hsign htwo.1 htwo.2 hleast hub1 huu
  · -- The dividend after the least value is divided by minus one.
    obtain ⟨x, hx, hx'⟩ := exists_mem_toInt_eq ha (z := -M + 1) (by omega) (by omega)
    obtain ⟨y, hy, hy'⟩ := exists_mem_toInt_eq hb hle (by omega)
    have hfits : ¬ BitInt.Overflows x y := fun h => by
      have := h.2.1
      omega
    have hnextv : -M + 2 ≤ v.toInt ∧ v.toInt < 0 := ⟨by omega, hneg⟩
    have hM : 3 ≤ M := by omega
    refine ⟨x, hx, y, hy, by omega, hfits, fun q hq d hd => ?_⟩
    have hq' : q.toInt = M - 1 := by
      rw [BitInt.toInt_div hq hfits, hx', hy', Int.tdiv_neg, Int.tdiv_one]
      omega
    refine rank_lt_of_corners ?_ ?_ ?_ ?_ hd <;> rw [hq']
    · exact corner_lt_greatest hminInt hsign hM (Or.inl hmin) hll
    · exact corner_lt_greatest hminInt hsign hM (Or.inr hnextv) hul
    · exact corner_lt_greatest hminInt hsign hM (Or.inl hmin) hlu
    · exact corner_lt_greatest hminInt hsign hM (Or.inr hnextv) huu

/-- **Division is right exactly when the corner that wraps is not needed.** -/
theorem divSound_iff (a b : Ptr sign width) :
    DivSound a b ↔ ((∃ x, x ∈ a) ∧ (∃ y, y ∈ b) → DivFits a b) := by
  refine ⟨fun hsound ⟨ha, hb⟩ => ?_, divSound_of_divFits⟩
  by_contra h
  obtain ⟨x₀, hx₀⟩ := id ha
  obtain ⟨y₀, hy₀⟩ := id hb
  have hover : CornerOverflows a b := (Classical.not_imp.mp h).1
  obtain ⟨u, t, hu, ht, ⟨-, -, hone⟩, hneg⟩ := hover
  have hzeroA : a.contains (BitInt.ofInt 0) = false := by
    by_contra hcontains
    have := ((mem_iff_lowest ha _).mp ⟨hx₀.1, by simpa using hcontains⟩).2
    rw [toInt_ofInt_zero] at this
    omega
  have hzeroB : b.contains (BitInt.ofInt 0) = false := by
    by_contra hcontains
    have := ((mem_iff_lowest hb _).mp ⟨hy₀.1, by simpa using hcontains⟩).2
    rw [toInt_ofInt_zero, ht, Bound.highest] at this
    omega
  obtain ⟨ll, ul, lu, uu, hc⟩ := exists_corners hx₀.1 hy₀.1 hzeroB hzeroA
  obtain ⟨x, hx, y, hy, hyzero, hfits, habove⟩ := exists_quotient_above ha hb hc h
  obtain ⟨r, hr, hmem⟩ := hsound
  obtain rfl := Option.some.inj (hc.apply_eq.symm.trans hr)
  obtain ⟨q, hq, hqr⟩ := hmem x hx y hy hyzero hfits
  have hall := habove q hq
  simp only [List.forall_mem_cons, List.not_mem_nil, false_implies, implies_true, and_true,
    ← not_le] at hall
  rcases (mem_of_corners.mp hqr).2 with h | h | h | h
  · exact hall.1 h
  · exact hall.2.1 h
  · exact hall.2.2.1 h
  · exact hall.2.2.2 h

/-! ## Remainder -/

/-- `apply(REM, b)` of `a` returns for non-empty intervals, and has every remainder of members. -/
def RemSound (a b : Ptr sign width) : Prop :=
  ∀ x ∈ a, ∀ y ∈ b, ∃ r, apply .rem a b = some r ∧
    (y.toInt ≠ 0 → ∃ m, x.rem y = some m ∧ m ∈ r)

/-- The bound of the magnitude of a remainder. -/
def remainderBound (a b : Ptr sign width) : Bound sign width :=
  (a.lb.abs.max a.ub.abs).min (b.lb.abs.max b.ub.abs - .ofInt 1)

/-- The remainder of intervals that are not both constant. -/
def remainderInterval (a b : Ptr sign width) : Ptr sign width :=
  if a.lb.lt (.ofInt 0) then
    if a.ub.gt (.ofInt 0) then interval (-remainderBound a b) (remainderBound a b)
    else interval (-remainderBound a b) (.ofInt 0)
  else interval (.ofInt 0) (remainderBound a b)

theorem apply_rem {a b : Ptr sign width} (ha : a.isBottom = false) (hb : b.isBottom = false)
    (hzero : b.isZero = false) (hconstant : (a.isConstant && b.isConstant) = false) :
    apply .rem a b = some (remainderInterval a b) := by
  unfold apply rem remainderInterval
  simp only [ha, hb, hzero, hconstant, Bool.or_self, Bool.false_eq_true, if_false]
  split
  · split <;> rfl
  · rfl

theorem apply_rem_constant {a b : Ptr sign width} (ha : a.isBottom = false)
    (hb : b.isBottom = false) (hzero : b.isZero = false)
    (hconstant : (a.isConstant && b.isConstant) = true) :
    apply .rem a b = (a.asConstant.rem b.asConstant).map fun r => clone (ofNumber r) := by
  unfold apply rem
  simp only [ha, hb, hzero, hconstant]
  cases a.asConstant.rem b.asConstant <;> rfl

/-- The place of an integer among the extended integers. -/
def extended (z : ℤ) : WithBot (WithTop ℤ) := ((z : WithTop ℤ) : WithBot (WithTop ℤ))

theorem rank_finite (x : BitInt sign width) : (Bound.finite x).rank = extended x.toInt := rfl

theorem extended_le_extended {z z' : ℤ} : extended z ≤ extended z' ↔ z ≤ z' := by
  simp [extended]

theorem neg_eq_ofValue (x : BitInt sign width) : -x = .ofValue (-x.toInt) := by
  conv_lhs => rw [← BitInt.ofValue_toInt x]
  exact congrArg BitInt.mk (BitVec.ofInt_neg).symm

theorem toInt_neg_of_mem {x : BitInt sign width} (hlo : BitInt.minInt sign width ≤ -x.toInt)
    (hhi : -x.toInt ≤ BitInt.maxInt sign width) : (-x).toInt = -x.toInt := by
  rw [neg_eq_ofValue, BitInt.toInt_ofValue]
  exact wrap_eq_of_mem hlo (by rw [BitInt.maxInt] at hhi; omega) rfl

/-- The end is not the least signed number, whose magnitude wraps. -/
def HasMagnitude (b : Bound sign width) : Prop :=
  sign = true → ∀ v, b = .finite v → v.toInt ≠ BitInt.minInt sign width

theorem extended_le_plusInfinity (z : ℤ) :
    extended z ≤ (Bound.plusInfinity : Bound sign width).rank := by
  simp [Bound.rank, extended]

theorem rank_abs_finite {v : BitInt sign width} (h : HasMagnitude (.finite v)) :
    (Bound.finite v).abs.rank = extended |v.toInt| := by
  unfold Bound.abs
  split
  · next hgeq =>
      rw [Bound.geq_iff, Bound.ofInt, Bound.rank_finite_le_finite, toInt_ofInt_zero] at hgeq
      rw [abs_of_nonneg hgeq]
      rfl
  · next hgeq =>
      rw [Bound.geq_iff, Bound.ofInt, Bound.rank_finite_le_finite, toInt_ofInt_zero, not_le] at hgeq
      have hmin := v.minInt_le_toInt
      have hmax := v.toInt_le_maxInt
      have hsign : sign = true := by
        by_contra hsign
        rw [Bool.not_eq_true] at hsign
        subst hsign
        rw [BitInt.minInt, if_neg Bool.noConfusion] at hmin
        omega
      have hne := h hsign v rfl
      have hwidth := BitInt.width_pos_of_toInt_ne_zero (y := v) (by omega)
      have hsymm := minInt_add_maxInt hsign hwidth
      rw [abs_of_neg hgeq, ← toInt_neg_of_mem (by omega) (by omega)]
      rfl

/-- The greater magnitude of the ends bounds the magnitude of a member. -/
theorem abs_le_max_abs {a : Ptr sign width} (hlb : HasMagnitude a.lb) (hub : HasMagnitude a.ub)
    {x : BitInt sign width} (hx : x ∈ a) :
    extended |x.toInt| ≤ (a.lb.abs.max a.ub.abs).rank := by
  rw [Bound.rank_max, le_max_iff]
  obtain ⟨hl, hu⟩ := mem_iff.mp hx
  cases hlb' : a.lb with
  | plusInfinity | minusInfinity => exact Or.inl (extended_le_plusInfinity _)
  | finite l =>
      cases hub' : a.ub with
      | plusInfinity | minusInfinity =>
          exact Or.inr (extended_le_plusInfinity _)
      | finite u =>
          rw [hlb'] at hl hlb
          rw [hub'] at hu hub
          rw [rank_abs_finite hlb, rank_abs_finite hub, extended_le_extended, extended_le_extended]
          rw [Bound.rank_finite_le_finite] at hl hu
          rw [← le_max_iff]
          exact abs_le_max_abs_abs hl hu

theorem toInt_ofInt_one (h : 1 ≤ BitInt.maxInt sign width) :
    (BitInt.ofInt 1 : BitInt sign width).toInt = 1 := by
  have heq : (BitInt.ofInt 1 : BitInt sign width) = .ofValue 1 := by
    simp [BitInt.ofInt, BitInt.ofValue]
  have hmin : BitInt.minInt sign width ≤ 0 := by
    have := BitInt.two_pow_pos width
    unfold BitInt.minInt
    split <;> omega
  rw [heq, BitInt.toInt_ofValue]
  exact wrap_eq_of_mem (by omega) (by rw [BitInt.maxInt] at h; omega) rfl

theorem toInt_sub_one {k : BitInt sign width} (hk : 1 ≤ k.toInt) :
    (k - BitInt.ofInt 1).toInt = k.toInt - 1 := by
  have hmax := k.toInt_le_maxInt
  have hzero := (BitInt.ofInt 0 : BitInt sign width).minInt_le_toInt
  rw [toInt_ofInt_zero] at hzero
  rw [BitInt.sub_eq_ofValue, toInt_ofInt_one (by omega), BitInt.toInt_ofValue]
  exact wrap_eq_of_mem (by omega) (by rw [BitInt.maxInt] at hmax; omega) rfl

/-- A bound of magnitudes that are not zero, less one. -/
theorem rank_sub_one {K : Bound sign width} {z : ℤ} (hz : 1 ≤ z) (h : extended z ≤ K.rank) :
    extended (z - 1) ≤ (K - .ofInt 1).rank := by
  cases K with
  | plusInfinity => simp [Bound.ofInt, Bound.rank, extended]
  | minusInfinity => simp [Bound.rank, extended] at h
  | finite k =>
      rw [rank_finite, extended_le_extended] at h
      rw [Bound.ofInt, Bound.finite_sub_finite, rank_finite, toInt_sub_one (by omega),
        extended_le_extended]
      omega

/-- The magnitude of a remainder is bounded. -/
theorem abs_tmod_le {a b : Ptr sign width} (ha : HasMagnitude a.lb ∧ HasMagnitude a.ub)
    (hb : HasMagnitude b.lb ∧ HasMagnitude b.ub) {x y : BitInt sign width} (hx : x ∈ a) (hy : y ∈ b)
    (hyzero : y.toInt ≠ 0) : extended |x.toInt.tmod y.toInt| ≤ (remainderBound a b).rank := by
  have hself : |x.toInt.tmod y.toInt| ≤ |x.toInt| := by
    rw [Int.abs_eq_natAbs, Int.abs_eq_natAbs, Int.natAbs_tmod]
    exact_mod_cast Nat.mod_le _ _
  have hless : |x.toInt.tmod y.toInt| ≤ |y.toInt| - 1 := by
    have := Nat.mod_lt x.toInt.natAbs (Int.natAbs_pos.mpr hyzero)
    rw [Int.abs_eq_natAbs, Int.abs_eq_natAbs, Int.natAbs_tmod]
    omega
  rw [remainderBound, Bound.rank_min, le_min_iff]
  constructor
  · exact (extended_le_extended.mpr hself).trans (abs_le_max_abs ha.1 ha.2 hx)
  · exact (extended_le_extended.mpr hless).trans
      (rank_sub_one (Int.one_le_abs hyzero) (abs_le_max_abs hb.1 hb.2 hy))

theorem eq_finite_of_isConstant {b : Ptr sign width} (hconstant : b.isConstant = true)
    {y : BitInt sign width} (hy : y ∈ b) : b.lb = .finite y ∧ b.ub = .finite y := by
  have hends : b.lb = b.ub := by simpa [isConstant] using hconstant
  obtain ⟨hl, hu⟩ := mem_iff.mp hy
  rw [← hends] at hu ⊢
  have := Bound.rank_injective (le_antisymm hl hu)
  exact ⟨this, this⟩

/-- When the remainder is right: no magnitude wraps, and an unsigned dividend that is open below
is divided by one, or by a divisor that is open as well. -/
structure RemFits (a b : Ptr sign width) : Prop where
  magnitudes : (a.isConstant && b.isConstant) = false →
    (HasMagnitude a.lb ∧ HasMagnitude a.ub) ∧ HasMagnitude b.lb ∧ HasMagnitude b.ub
  openDividend : sign = false → a.lb = .minusInfinity →
    b.lb = .minusInfinity ∨ b.ub = .plusInfinity ∨ b.ub.highest ≤ 1

/-- The bound for an unsigned dividend that is open below and a closed divisor. -/
theorem remainderBound_of_open {a b : Ptr false width} {l h : BitInt false width}
    (ha : a.lb = .minusInfinity) (hl : b.lb = .finite l) (hh : b.ub = .finite h)
    (hle : l.toInt ≤ h.toInt) (hpos : 1 ≤ h.toInt) :
    ∃ c, remainderBound a b = .finite c ∧ c.toInt = h.toInt - 1 := by
  refine ⟨h - BitInt.ofInt 1, Bound.rank_injective ?_, toInt_sub_one hpos⟩
  have hlzero : 0 ≤ l.toInt := l.minInt_le_toInt
  have hmax : b.lb.abs.max b.ub.abs = .finite h := by
    apply Bound.rank_injective
    rw [Bound.rank_max, hl, hh, rank_abs_finite (fun h => Bool.noConfusion h),
      rank_abs_finite (fun h => Bool.noConfusion h), abs_of_nonneg hlzero,
      abs_of_nonneg (by omega)]
    exact max_eq_right (extended_le_extended.mpr hle)
  rw [remainderBound, hmax, Bound.rank_min, Bound.rank_max, ha]
  refine min_eq_right ?_
  exact (extended_le_plusInfinity _).trans (le_max_left _ _)

/-- A bound of the magnitude, negated, is below the remainder. -/
theorem neg_rank_le {U : Bound true width} {m : BitInt true width}
    (h : extended |m.toInt| ≤ U.rank) : (-U).rank ≤ (Bound.finite m).rank := by
  cases U with
  | plusInfinity => exact bot_le
  | minusInfinity => simp [Bound.rank, extended] at h
  | finite c =>
      rw [rank_finite, extended_le_extended] at h
      show (Bound.finite (-c)).rank ≤ _
      have habs := neg_abs_le m.toInt
      have hnonneg := abs_nonneg m.toInt
      have hmax := c.toInt_le_maxInt
      have hmin : BitInt.minInt true width ≤ -BitInt.maxInt true width := by
        rcases Nat.eq_zero_or_pos width with rfl | hwidth
        · decide
        · have := @minInt_add_maxInt true width rfl hwidth
          omega
      rw [Bound.rank_finite_le_finite, toInt_neg_of_mem (by omega) (by omega)]
      omega

theorem remainderBound_of_unbounded {a b : Ptr sign width} (hopen : a.lb = .minusInfinity)
    (hb : b.lb = .minusInfinity ∨ b.ub = .plusInfinity) : remainderBound a b = .plusInfinity := by
  have hmax : b.lb.abs.max b.ub.abs = .plusInfinity := by
    apply Bound.rank_injective
    rw [Bound.rank_max]
    rcases hb with h | h
    · rw [h]
      exact max_eq_left (Bound.rank_le_plusInfinity _)
    · rw [h]
      exact max_eq_right (Bound.rank_le_plusInfinity _)
  apply Bound.rank_injective
  rw [remainderBound, hmax, Bound.rank_min, Bound.rank_max, hopen]
  exact min_eq_right ((Bound.rank_le_plusInfinity _).trans (le_max_left _ _))

/-- The negated bound of an open unsigned dividend: `-oo`, or the zero of a division by one. -/
theorem neg_remainderBound_le {a b : Ptr false width} (hfits : RemFits a b)
    (hopen : a.lb = .minusInfinity) {x y m : BitInt false width} (hy : y ∈ b)
    (hyzero : y.toInt ≠ 0) (hm : m.toInt = x.toInt.tmod y.toInt) :
    (-remainderBound a b).rank ≤ (Bound.finite m).rank := by
  by_cases hb : b.lb = .minusInfinity ∨ b.ub = .plusInfinity
  · rw [remainderBound_of_unbounded hopen hb]
    exact bot_le
  · rw [not_or] at hb
    have hone := ((hfits.openDividend rfl hopen).resolve_left hb.1).resolve_left hb.2
    obtain ⟨hly, hyu⟩ := (mem_iff_lowest ⟨y, hy⟩ y).mp hy
    have hynonneg : 0 ≤ y.toInt := y.minInt_le_toInt
    rw [eq_interval b] at hy
    obtain ⟨hbl, hbu⟩ := bounds_of_mem ⟨y, hy⟩
    obtain ⟨l, hl⟩ := hbl.resolve_left hb.1
    obtain ⟨h, hh⟩ := hbu.resolve_left hb.2
    rw [hl, Bound.lowest] at hly
    rw [hh, Bound.highest] at hyu hone
    obtain ⟨c, hc, hc'⟩ := remainderBound_of_open hopen hl hh (hly.trans hyu) (by omega)
    have hc0 : c = BitInt.ofInt 0 := by
      apply BitInt.toInt_injective
      rw [toInt_ofInt_zero]
      omega
    have hm0 : m.toInt = 0 := by
      rw [hm, show y.toInt = 1 by omega, Int.tmod_one]
    rw [hc, hc0]
    show (Bound.finite (-BitInt.ofInt 0)).rank ≤ _
    rw [Bound.rank_finite_le_finite, hm0, neg_eq_ofValue, toInt_ofInt_zero, neg_zero,
      ← @toInt_ofInt_zero false width, BitInt.ofValue_toInt]

/-- A remainder of members is in the interval of remainders. -/
theorem mem_remainderInterval {a b : Ptr sign width} (hfits : RemFits a b)
    (hconstant : (a.isConstant && b.isConstant) = false) {x y m : BitInt sign width} (hx : x ∈ a)
    (hy : y ∈ b) (hyzero : y.toInt ≠ 0) (hm : m.toInt = x.toInt.tmod y.toInt) :
    m ∈ remainderInterval a b := by
  obtain ⟨ha, hb⟩ := hfits.magnitudes hconstant
  have habs : extended |m.toInt| ≤ (remainderBound a b).rank := by
    rw [hm]
    exact abs_tmod_le ha hb hx hy hyzero
  have hupper : (Bound.finite m).rank ≤ (remainderBound a b).rank :=
    (extended_le_extended.mpr (le_abs_self m.toInt)).trans habs
  have hzero : (Bound.ofInt 0 : Bound sign width).rank = extended 0 := by
    rw [Bound.ofInt, rank_finite, toInt_ofInt_zero]
  obtain ⟨hl, hu⟩ := mem_iff.mp hx
  unfold remainderInterval
  split
  · next hlt =>
      have hlower : (-remainderBound a b).rank ≤ (Bound.finite m).rank := by
        cases sign with
        | true => exact neg_rank_le habs
        | false =>
            have hopen : a.lb = .minusInfinity := by
              cases hlb : a.lb with
              | minusInfinity => rfl
              | plusInfinity => simp [hlb, Bound.rank] at hl
              | finite v =>
                  rw [hlb] at hlt
                  simp only [Bound.lt, Bool.not_eq_true', ← Bool.not_eq_true, Bound.geq_iff,
                    Bound.ofInt, Bound.rank_finite_le_finite, toInt_ofInt_zero] at hlt
                  exact absurd v.minInt_le_toInt hlt
            exact neg_remainderBound_le hfits hopen hy hyzero hm
      split
      · exact mem_interval_iff.mpr ⟨hlower, hupper⟩
      · next hgt =>
          refine mem_interval_iff.mpr ⟨hlower, ?_⟩
          simp only [Bound.gt, Bool.not_eq_true', Bool.not_eq_false, Bound.leq_iff] at hgt
          have hx0 := hu.trans hgt
          rw [hzero, rank_finite, extended_le_extended] at hx0
          rw [hzero, rank_finite, extended_le_extended, hm]
          have := Int.tmod_nonneg y.toInt (neg_nonneg.mpr hx0)
          rw [Int.neg_tmod] at this
          omega
  · next hlt =>
      refine mem_interval_iff.mpr ⟨?_, hupper⟩
      simp only [Bound.lt, Bool.not_eq_true', Bool.not_eq_false, Bound.geq_iff] at hlt
      have hx0 := hlt.trans hl
      rw [hzero, rank_finite, extended_le_extended] at hx0
      rw [hzero, rank_finite, extended_le_extended, hm]
      exact Int.tmod_nonneg y.toInt hx0

theorem remSound_of_remFits {a b : Ptr sign width}
    (h : (∃ x, x ∈ a) ∧ (∃ y, y ∈ b) → RemFits a b) : RemSound a b := by
  intro x hx y hy
  have hfits := h ⟨⟨x, hx⟩, ⟨y, hy⟩⟩
  cases hzero : b.isZero with
  | true =>
      refine ⟨bottom, ?_, fun hyzero => absurd ?_ hyzero⟩
      · simp [apply, rem, hx.1, hy.1, hzero, clone, getBottom, bottom]
      · rw [eq_of_isConstantInt hzero hy, toInt_ofInt_zero]
  | false =>
      cases hconstant : (a.isConstant && b.isConstant) with
      | true =>
          obtain ⟨ha, hb⟩ := Bool.and_eq_true_iff.mp hconstant
          have hyzero : y.toInt ≠ 0 := by
            intro hy0
            have : y = BitInt.ofInt 0 := BitInt.toInt_injective (hy0.trans toInt_ofInt_zero.symm)
            obtain ⟨hl, hu⟩ := eq_finite_of_isConstant hb hy
            simp [isZero, isConstantInt, Bound.ofInt, hl, hu, this] at hzero
          obtain ⟨m, hm⟩ := BitInt.exists_rem hyzero x
          refine ⟨clone (ofNumber m), ?_, fun _ => ⟨m, hm, ?_⟩⟩
          · rw [apply_rem_constant hx.1 hy.1 hzero hconstant, ← eq_asConstant ha hx,
              ← eq_asConstant hb hy, hm]
            rfl
          · exact mem_interval_iff.mpr ⟨le_rfl, le_rfl⟩
      | false =>
          refine ⟨_, apply_rem hx.1 hy.1 hzero hconstant, fun hyzero => ?_⟩
          obtain ⟨m, hm⟩ := BitInt.exists_rem hyzero x
          exact ⟨m, hm, mem_remainderInterval hfits hconstant hx hy hyzero (BitInt.toInt_rem hm)⟩

/-- For unsigned numbers the condition is necessary. -/
theorem remFits_of_remSound {a b : Ptr false width} (ha : ∃ x, x ∈ a) (hb : ∃ y, y ∈ b)
    (h : RemSound a b) : RemFits a b := by
  have hmagnitude : ∀ c : Bound false width, HasMagnitude c := fun c hsign => Bool.noConfusion hsign
  refine ⟨fun _ => ⟨⟨hmagnitude _, hmagnitude _⟩, hmagnitude _, hmagnitude _⟩, fun _ hopen => ?_⟩
  by_contra hclosed
  rw [not_or, not_or, not_le] at hclosed
  obtain ⟨hbl, hbu, htwo⟩ := hclosed
  obtain ⟨y₀, hy₀⟩ := id hb
  rw [eq_interval b] at hy₀
  obtain ⟨l, hl⟩ := (bounds_of_mem ⟨y₀, hy₀⟩).1.resolve_left hbl
  obtain ⟨u, hu⟩ := (bounds_of_mem ⟨y₀, hy₀⟩).2.resolve_left hbu
  have hle := lowest_le_highest ⟨y₀, hy₀⟩
  rw [hl, hu, Bound.lowest, Bound.highest] at hle
  obtain ⟨x, hx, hx0⟩ : ∃ x ∈ a, x.toInt = 0 := by
    obtain ⟨x₀, hx₀⟩ := id ha
    have := ((mem_iff_lowest ha x₀).mp hx₀).2
    have hmin : 0 ≤ x₀.toInt := x₀.minInt_le_toInt
    exact exists_mem_toInt_eq ha (by rw [hopen]; exact le_rfl) (hmin.trans this)
  obtain ⟨y, hy, hyu⟩ := exists_mem_toInt_eq hb (z := u.toInt) (by rw [hl]; exact hle)
    (by rw [hu]; exact le_rfl)
  rw [hu, Bound.highest] at htwo
  obtain ⟨r, hr, hmem⟩ := h x hx y hy
  obtain ⟨m, hm, hmr⟩ := hmem (by omega)
  have hm0 : m.toInt = 0 := by
    rw [BitInt.toInt_rem hm, hx0, Int.zero_tmod]
  have hzero : b.isZero = false := by
    by_contra hzero
    have := eq_of_isConstantInt (by simpa [isZero] using hzero) hy
    rw [this, toInt_ofInt_zero] at hyu
    omega
  have hconstant : (a.isConstant && b.isConstant) = false := by
    by_contra hconstant
    rw [Bool.not_eq_false, Bool.and_eq_true] at hconstant
    have := (eq_finite_of_isConstant hconstant.1 hx).1
    rw [hopen] at this
    cases this
  obtain rfl := Option.some.inj ((apply_rem hx.1 hy.1 hzero hconstant).symm.trans hr)
  obtain ⟨c, hc, hc'⟩ := remainderBound_of_open hopen hl hu hle (by omega)
  have hlower : (-remainderBound a b).rank ≤ (Bound.finite m).rank := by
    have hlt : a.lb.lt (.ofInt 0) = true := by rw [hopen]; rfl
    unfold remainderInterval at hmr
    rw [if_pos hlt] at hmr
    split at hmr
    · exact (mem_interval_iff.mp hmr).1
    · exact (mem_interval_iff.mp hmr).1
  rw [hc] at hlower
  have hneg : (-c).toInt = 0 := by
    have hle : (-c).toInt ≤ m.toInt := Bound.rank_finite_le_finite.mp hlower
    have hmin : 0 ≤ (-c).toInt := (-c).minInt_le_toInt
    omega
  have hinner : -c.inner = 0 := BitInt.toInt_eq_zero_iff.mp hneg
  have hc0 : c.toInt = 0 := BitInt.toInt_eq_zero_iff.mpr (neg_eq_zero.mp hinner)
  omega

end Interval

end Borealis
