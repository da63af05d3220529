import Borealis.Interpreter.IntervalLattice

/-!
# Casts between integer intervals

`AbstractFactory::cast` for the casts between integers.  Every cast converts the two bounds of a
component and pairs them again:

* `EXT` extends the bounds of the signed component with their sign, although the values are
  extended with zeros;
* `TRUNC` cuts the bounds, so that the pair may be reversed or too narrow;
* `SEXT` takes the unsigned component to a signed interval and back;
* `SIGN` reads a bound through its low word of 64 bits.

## Strategy

A pair of intervals holds two ranges of machine integers, the non-negative and the negative ones
(`half`), and on each of them the signed and the unsigned order agree.  Extending keeps the order of
a range, and truncation keeps it exactly where the range does not leave a window of the smaller
width (`forall_le_wrap_iff`, `forall_wrap_le_iff`).
-/

namespace Borealis

open Lib

/-! ## The casts -/

section

variable {sign : Bool} {width : Nat}

/-- `BitInt::convert`. -/
def BitInt.convert (n : BitInt sign width) (newWidth : Nat) : BitInt sign newWidth :=
  ⟨if width < newWidth then
      if sign then n.inner.signExtend newWidth else n.inner.setWidth newWidth
    else n.inner.setWidth newWidth⟩

/-- `util::convert` of a bound. -/
def Bound.convert (b : Bound sign width) (target : Nat) : Bound sign target :=
  match b with
  | plusInfinity => plusInfinity
  | minusInfinity => minusInfinity
  | finite value => finite (value.convert target)

/-- `util::convert` of an interval, from the cache. -/
def Interval.convert (a : Interval.Ptr sign width) (target : Nat) : Interval.Ptr sign target :=
  Interval.interval (a.lb.convert target) (a.ub.convert target)

/-- `util::cast<BitInt<s1>, BitInt<s2>>`: the low word of the number. -/
def BitInt.cast (s2 : Bool) (n : BitInt sign width) : BitInt s2 width :=
  ⟨BitVec.ofNat width (n.inner.toNat % 2 ^ 64)⟩

/-- `util::cast` of a bound. -/
def Bound.cast (s2 : Bool) (b : Bound sign width) : Bound s2 width :=
  match b with
  | plusInfinity => plusInfinity
  | minusInfinity => minusInfinity
  | finite value => finite (value.cast s2)

/-- `cast(SIGN, …)` of a signed or unsigned interval. -/
def castSign (targetSigned : Bool) (domain : Interval.Ptr sign width) :
    Interval.Ptr targetSigned width :=
  if h : targetSigned = sign then h ▸ Interval.clone domain.toInterval
  else Interval.interval (domain.lb.cast targetSigned) (domain.ub.cast targetSigned)

/-- What a cast of a `DoubleInterval` returns: for one bit an unsigned interval. -/
inductive CastResult (width : Nat) where
  | int (domain : DoubleInterval width)
  | bool (domain : Interval.Ptr false width)

/-- `cast(TRUNC, …)` and `cast(EXT, …)`.  The cast of an unsigned component of one bit is a
`DoubleInterval` already, which cannot be a component. -/
def castTruncExt (target : Nat) (domain : DoubleInterval width) : Option (CastResult target) :=
  if width = 1 then none
  else
    let first := Interval.convert domain.first target
    let second := Interval.convert domain.second target
    some (if target = 1 then .bool second else .int (DoubleInterval.interval first second))

/-- `cast(SEXT, …)`. -/
def castSext (target : Nat) (domain : DoubleInterval width) : DoubleInterval target :=
  let first := Interval.convert domain.first target
  let signd := castSign true domain.second
  let sres := Interval.convert signd target
  DoubleInterval.interval first (castSign false sres)

/-- The machine integers of a result. -/
instance : Membership (BitVec width) (CastResult width) :=
  ⟨fun r x => match r with
    | .int domain => x ∈ domain
    | .bool domain => (⟨x⟩ : BitInt false width) ∈ domain⟩

/-! ## Bounds under extension -/

theorem BitInt.toInt_convert_of_le (n : BitInt sign width) {target : Nat} (h : width ≤ target) :
    (n.convert target).toInt = n.toInt := by
  cases sign
  · simp [BitInt.convert, BitInt.toInt, BitVec.toNat_setWidth_of_le h]
  · rcases h.lt_or_eq with hlt | rfl
    · simp [BitInt.convert, BitInt.toInt, hlt, BitVec.toInt_signExtend_of_le h]
    · simp [BitInt.convert, BitInt.toInt]

theorem Bound.rank_convert_of_le (b : Bound sign width) {target : Nat} (h : width ≤ target) :
    (b.convert target).rank = b.rank := by
  cases b with
  | plusInfinity => rfl
  | minusInfinity => rfl
  | finite value => simp [Bound.convert, Bound.rank, BitInt.toInt_convert_of_le value h]

theorem Interval.mem_convert_iff {a : Interval.Ptr sign width} {target : Nat} {y : BitInt sign target} :
    y ∈ Interval.convert a target ↔ (a.lb.convert target).rank ≤ (Bound.finite y).rank ∧
      (Bound.finite y).rank ≤ (a.ub.convert target).rank :=
  Interval.mem_interval_iff

/-- Extending in the reading of a component keeps its members. -/
theorem Interval.mem_convert_of_le {a : Interval.Ptr sign width} {x : BitInt sign width}
    (hx : x ∈ a) {target : Nat} (h : width ≤ target) : x.convert target ∈ Interval.convert a target := by
  rw [Interval.mem_convert_iff, Bound.rank_convert_of_le _ h, Bound.rank_convert_of_le _ h]
  have hrank : (Bound.finite (x.convert target)).rank = (Bound.finite x).rank := by
    simp [Bound.rank, BitInt.toInt_convert_of_le x h]
  rw [hrank]
  exact Interval.mem_iff.mp hx

theorem Interval.isTop_convert (a : Interval.Ptr sign width) (target : Nat) :
    (Interval.convert a target).isTop = a.isTop := by
  rw [Bool.eq_iff_iff, Interval.isTop_iff, Interval.isTop_iff]
  simp only [Interval.convert, Interval.interval]
  cases a.lb <;> cases a.ub <;> simp [Bound.convert]

end

namespace IntegerCasts

variable {width target : Nat}

/-! ## Zero extension -/

/-- A pair of more than one bit has no negative member, or its signed component is open above. -/
def ExtFits (a : DoubleInterval width) : Prop :=
  width ≠ 1 ∧ ((∃ x ∈ a, x.msb = true) → a.first.ub = .plusInfinity)

/-- `cast(EXT, …)` contains the zero extensions. -/
def ExtSound (target : Nat) (a : DoubleInterval width) : Prop :=
  ∃ r, castTruncExt target a = some r ∧ ∀ x ∈ a, x.setWidth target ∈ r

/-- A normalized pair is top when one of its components is. -/
theorem isTop_of_component {a : DoubleInterval width}
    (h : a.first.isTop = true ∨ a.second.isTop = true) :
    a.first.isTop = true ∧ a.second.isTop = true := by
  have hnormal := a.normalized
  unfold DoubleInterval.normalize at hnormal
  rw [if_pos (by simpa using h)] at hnormal
  rw [← (Prod.mk.inj hnormal).1, ← (Prod.mk.inj hnormal).2]
  exact ⟨rfl, rfl⟩

/-- The zero extension of a member is in the extended signed component when the member is not
negative or that component is open above. -/
theorem setWidth_mem_first_iff {a : DoubleInterval width} {x : BitVec width} (hx : x ∈ a)
    (hlt : width < target) : (⟨x.setWidth target⟩ : BitInt true target) ∈ Interval.convert a.first target ↔
      (x.msb = true → a.first.ub = .plusInfinity) := by
  have hmem := Interval.mem_iff.mp hx.1
  have hvalue : (⟨x.setWidth target⟩ : BitInt true target).toInt = x.toNat := by
    have hmsb : (x.setWidth target).msb = false := by
      rw [BitVec.msb_eq_toNat, BitVec.toNat_setWidth_of_le hlt.le, decide_eq_false_iff_not, not_le]
      exact lt_of_lt_of_le x.isLt (Nat.pow_le_pow_right two_pos (by omega))
    simp [BitInt.toInt, BitVec.toInt_eq_toNat_of_msb hmsb, BitVec.toNat_setWidth_of_le hlt.le]
  have hrank : (Bound.finite (⟨x.setWidth target⟩ : BitInt true target)).rank =
      (((x.toNat : ℤ) : WithTop ℤ) : WithBot (WithTop ℤ)) := by rw [Bound.rank, hvalue]
  rw [Interval.mem_convert_iff, Bound.rank_convert_of_le _ hlt.le,
    Bound.rank_convert_of_le _ hlt.le, hrank]
  have hself : (Bound.finite (⟨x⟩ : BitInt true width)).rank =
      ((x.toInt : WithTop ℤ) : WithBot (WithTop ℤ)) := by simp [Bound.rank, BitInt.toInt]
  rw [hself] at hmem
  cases hmsb : x.msb with
  | false =>
      rw [BitVec.toInt_eq_toNat_of_msb hmsb] at hmem
      simp only [Bool.false_eq_true, false_implies, iff_true]
      exact hmem
  | true =>
      have hlt' : x.toInt < x.toNat := by
        have := x.isLt
        rw [BitVec.toInt_eq_msb_cond, hmsb, if_pos rfl]
        have hpos : (0 : ℤ) < (2 ^ width : ℕ) := by positivity
        linarith
      have hlower : a.first.lb.rank ≤ (((x.toNat : ℤ) : WithTop ℤ) : WithBot (WithTop ℤ)) :=
        hmem.1.trans (by exact_mod_cast hlt'.le)
      simp only [hlower, true_and, forall_const]
      constructor
      · intro hupper
        cases hub : a.first.ub with
        | plusInfinity => rfl
        | minusInfinity => simp [hub, Bound.rank] at hupper
        | finite v =>
            -- a finite end is below half of the range
            rw [hub, Bound.rank] at hupper
            have hle : (x.toNat : ℤ) ≤ v.toInt := by exact_mod_cast hupper
            have hhalf : 2 ^ (width - 1) ≤ x.toNat := by
              simpa [BitVec.msb_eq_toNat] using hmsb
            have hbound := BitVec.toInt_lt (x := v.inner)
            have hv : v.toInt = v.inner.toInt := by simp [BitInt.toInt]
            have hhalf' : ((2 : ℤ) ^ (width - 1)) ≤ x.toNat := by exact_mod_cast hhalf
            rw [hv] at hle
            exact absurd (hhalf'.trans hle) (not_le.mpr hbound)
      · intro hub
        rw [hub]
        exact Bound.rank_le_plusInfinity (.finite (⟨x.setWidth target⟩ : BitInt true target)) |>.trans'
          hrank.ge

/-- Zero extension keeps the members of the unsigned component. -/
theorem setWidth_mem_second {a : DoubleInterval width} {x : BitVec width} (hx : x ∈ a)
    (hlt : width < target) :
    (⟨x.setWidth target⟩ : BitInt false target) ∈ Interval.convert a.second target := by
  have hmem := Interval.mem_convert_of_le hx.2 hlt.le
  simpa [BitInt.convert, hlt] using hmem

/-- **Zero extension is sound exactly when no member is negative or the signed component is open
above.** -/
theorem extSound_iff (a : DoubleInterval width) (hpos : 0 < width) (hlt : width < target) :
    ExtSound target a ↔ ExtFits a := by
  unfold ExtSound ExtFits castTruncExt
  by_cases hone : width = 1
  · simp [hone]
  · have htarget : target ≠ 1 := by omega
    simp only [hone, if_false, htarget, Option.some.injEq, exists_eq_left', ne_eq,
      not_false_eq_true, true_and]
    have hmem : ∀ x : BitVec width, x.setWidth target ∈ CastResult.int (DoubleInterval.interval
        (Interval.convert a.first target) (Interval.convert a.second target)) ↔ _ := fun x =>
      DoubleInterval.mem_interval_iff (hpos.trans hlt)
    constructor
    · rintro hsound ⟨x, hx, hmsb⟩
      rcases (hmem x).mp (hsound x hx) with htop | htop | ⟨hfirst, -⟩
      · rw [Interval.isTop_convert] at htop
        exact (Interval.isTop_iff.mp htop).2
      · rw [Interval.isTop_convert] at htop
        exact (Interval.isTop_iff.mp (isTop_of_component (.inr htop)).1).2
      · exact (setWidth_mem_first_iff hx hlt).mp hfirst hmsb
    · intro hfits x hx
      exact (hmem x).mpr (.inr (.inr ⟨(setWidth_mem_first_iff hx hlt).mpr fun hmsb =>
        hfits ⟨x, hx, hmsb⟩, setWidth_mem_second hx hlt⟩))

/-! ## Sign extension -/

/-- `cast(SEXT, …)` contains the sign extensions. -/
def SextSound (target : Nat) (a : DoubleInterval width) : Prop :=
  ∀ x ∈ a, x.signExtend target ∈ castSext target a

/-- The unsigned component is open above, or the extension fits a word, or no member is negative
and, when the members do not fit a word, the low word of the upper end is above them. -/
def SextFits (target : Nat) (a : DoubleInterval width) : Prop :=
  a.second.ub = .plusInfinity ∨ target ≤ 64 ∨ (∀ x ∈ a, x.msb = false) ∧
    (width ≤ 64 ∨ ∀ v, a.second.ub = .finite v → ∀ x ∈ a, x.toNat ≤ v.inner.toNat % 2 ^ 64)

/-- The bound of the unsigned component after `SEXT`. -/
def sextBound (target : Nat) (v : BitVec width) : BitVec target :=
  BitVec.ofNat target (((BitVec.ofNat width (v.toNat % 2 ^ 64)).signExtend target).toNat % 2 ^ 64)

theorem castSext_second_bound (hlt : width < target) (b : Bound false width) :
    (((b.cast true).convert target).cast false) = match b with
      | .plusInfinity => .plusInfinity
      | .minusInfinity => .minusInfinity
      | .finite v => .finite ⟨sextBound target v.inner⟩ := by
  cases b with
  | plusInfinity => rfl
  | minusInfinity => rfl
  | finite v => simp [Bound.cast, Bound.convert, BitInt.cast, BitInt.convert, hlt, sextBound]

theorem toNat_signExtend_of_lt (hlt : width < target) (x : BitVec width) :
    (x.signExtend target).toNat = x.toNat + if x.msb then 2 ^ target - 2 ^ width else 0 := by
  rw [BitVec.toNat_signExtend, BitVec.toNat_setWidth_of_le hlt.le]

/-- Up to a word the bound is sign-extended and cut to a word. -/
theorem sextBound_of_le (h : width ≤ 64) (v : BitVec width) :
    (sextBound target v).toNat = (v.signExtend target).toNat % 2 ^ 64 % 2 ^ target := by
  have hmod : v.toNat % 2 ^ 64 = v.toNat :=
    Nat.mod_eq_of_lt (v.isLt.trans_le (Nat.pow_le_pow_right two_pos h))
  rw [sextBound, hmod, BitVec.ofNat_toNat, BitVec.setWidth_eq, BitVec.toNat_ofNat]

/-- Beyond a word only the low word of the bound is left. -/
theorem sextBound_of_gt (hlt : width < target) (h : 64 < width) (v : BitVec width) :
    (sextBound target v).toNat = v.toNat % 2 ^ 64 := by
  have hword : v.toNat % 2 ^ 64 < 2 ^ 64 := Nat.mod_lt _ (by norm_num)
  have hwidth : 2 ^ 65 ≤ 2 ^ width := Nat.pow_le_pow_right two_pos h
  have htarget : 2 ^ width ≤ 2 ^ target := Nat.pow_le_pow_right two_pos hlt.le
  have hofNat : (BitVec.ofNat width (v.toNat % 2 ^ 64)).toNat = v.toNat % 2 ^ 64 := by
    rw [BitVec.toNat_ofNat, Nat.mod_eq_of_lt (by omega)]
  have hmsb : (BitVec.ofNat width (v.toNat % 2 ^ 64)).msb = false := by
    rw [BitVec.msb_eq_false_iff_two_mul_lt, hofNat]
    omega
  rw [sextBound, BitVec.toNat_ofNat, toNat_signExtend_of_lt hlt, hofNat, hmsb]
  simp only [Bool.false_eq_true, if_false, Nat.add_zero, Nat.mod_mod]
  exact Nat.mod_eq_of_lt (by omega)

/-- The extended lower end stays below the extended members. -/
theorem sextBound_le (hlt : width < target) {l x : BitVec width} (h : l.toNat ≤ x.toNat) :
    (sextBound target l).toNat ≤ (x.signExtend target).toNat := by
  have hx := toNat_signExtend_of_lt hlt x
  by_cases hwidth : width ≤ 64
  · have hl := toNat_signExtend_of_lt hlt l
    have hle : (l.signExtend target).toNat ≤ (x.signExtend target).toNat := by
      cases hlmsb : l.msb with
      | false =>
          rw [hl, hx, hlmsb]
          simp only [Bool.false_eq_true, if_false]
          omega
      | true =>
          have hxmsb : x.msb = true := by
            rw [BitVec.msb_eq_true_iff_two_mul_ge] at hlmsb ⊢
            omega
          rw [hl, hx, hlmsb, hxmsb]
          omega
    rw [sextBound_of_le hwidth]
    exact (Nat.mod_le _ _).trans ((Nat.mod_le _ _).trans hle)
  · rw [sextBound_of_gt hlt (by omega)]
    have := Nat.mod_le l.toNat (2 ^ 64)
    omega

/-- The extended upper end stays above an extended member when the extension fits a word; beyond
that only for a member that is not negative and below the low word of the end. -/
theorem le_sextBound_iff (hlt : width < target) {u x : BitVec width} (h : x.toNat ≤ u.toNat) :
    (x.signExtend target).toNat ≤ (sextBound target u).toNat ↔
      target ≤ 64 ∨ x.msb = false ∧ (width ≤ 64 ∨ x.toNat ≤ u.toNat % 2 ^ 64) := by
  have hx := toNat_signExtend_of_lt hlt x
  have hu := toNat_signExtend_of_lt hlt u
  have hpow : 2 * 2 ^ width ≤ 2 ^ target := by
    rw [← pow_succ']
    exact Nat.pow_le_pow_right two_pos hlt
  have hxlt := x.isLt
  have hult := u.isLt
  by_cases htarget : target ≤ 64
  · have hword : 2 ^ target ≤ 2 ^ 64 := Nat.pow_le_pow_right two_pos htarget
    have hmod : (sextBound target u).toNat = (u.signExtend target).toNat := by
      have := (u.signExtend target).isLt
      rw [sextBound_of_le (by omega), Nat.mod_eq_of_lt (by omega),
        Nat.mod_eq_of_lt (this.trans_le hword)]
    rw [hmod, hx, hu]
    simp only [htarget, true_or, iff_true]
    cases hxmsb : x.msb with
    | false =>
        simp only [Bool.false_eq_true, if_false]
        omega
    | true =>
        have humsb : u.msb = true := by
          rw [BitVec.msb_eq_true_iff_two_mul_ge] at hxmsb ⊢
          omega
        rw [humsb]
        omega
  · have hword : 2 * 2 ^ 64 ≤ 2 ^ target := by
      rw [← pow_succ']
      exact Nat.pow_le_pow_right two_pos (by omega)
    have hbound : (sextBound target u).toNat < 2 ^ 64 := by
      by_cases hwidth : width ≤ 64
      · rw [sextBound_of_le hwidth]
        exact (Nat.mod_le _ _).trans_lt (Nat.mod_lt _ (by norm_num))
      · rw [sextBound_of_gt hlt (by omega)]
        exact Nat.mod_lt _ (by norm_num)
    simp only [htarget, false_or]
    cases hxmsb : x.msb with
    | true =>
        -- a negative member is extended beyond every word
        rw [BitVec.msb_eq_true_iff_two_mul_ge] at hxmsb
        simp only [Bool.true_eq_false, false_and, iff_false, not_le, hx,
          BitVec.msb_eq_true_iff_two_mul_ge.mpr hxmsb, if_true]
        omega
    | false =>
        simp only [true_and, hx, hxmsb, Bool.false_eq_true, if_false, Nat.add_zero]
        by_cases hwidth : width ≤ 64
        · simp only [hwidth, true_or, iff_true]
          rw [sextBound_of_le hwidth, hu]
          have hsmall : 2 ^ width ≤ 2 ^ 64 := Nat.pow_le_pow_right two_pos hwidth
          cases humsb : u.msb with
          | false =>
              simp only [Bool.false_eq_true, if_false, Nat.add_zero]
              rw [Nat.mod_eq_of_lt (by omega), Nat.mod_eq_of_lt (by omega)]
              exact h
          | true =>
              -- the low word of the extension is the bound with ones up to the word
              obtain ⟨k, hk⟩ : ∃ k, 2 ^ target = 2 ^ 64 * (k + 1) := by
                obtain ⟨d, hd⟩ := Nat.exists_eq_add_of_le (Nat.le_of_not_le htarget)
                have hdpos : 0 < 2 ^ d := Nat.two_pow_pos d
                exact ⟨2 ^ d - 1, by rw [hd, pow_add, Nat.sub_add_cancel hdpos]⟩
              have hsum : u.toNat + (2 ^ target - 2 ^ width) =
                  (u.toNat + 2 ^ 64 - 2 ^ width) + 2 ^ 64 * k := by
                rw [Nat.mul_succ] at hk
                omega
              simp only [if_true]
              rw [hsum, Nat.add_mul_mod_self_left, Nat.mod_eq_of_lt (by omega),
                Nat.mod_eq_of_lt (by omega)]
              omega
        · simp only [hwidth, false_or]
          rw [sextBound_of_gt hlt (by omega)]

theorem castSext_second (a : DoubleInterval width) :
    castSign false (Interval.convert (castSign true a.second) target) =
      Interval.interval (((a.second.lb.cast true).convert target).cast false)
        (((a.second.ub.cast true).convert target).cast false) := rfl

/-- The sign extension of a member is in the extended unsigned component when the upper end stays
above it. -/
theorem signExtend_mem_second_iff {a : DoubleInterval width} {x : BitVec width} (hx : x ∈ a)
    (hlt : width < target) :
    (⟨x.signExtend target⟩ : BitInt false target) ∈
        castSign false (Interval.convert (castSign true a.second) target) ↔
      ∀ v, a.second.ub = .finite v → target ≤ 64 ∨
        x.msb = false ∧ (width ≤ 64 ∨ x.toNat ≤ v.inner.toNat % 2 ^ 64) := by
  have hmem := Interval.mem_iff.mp hx.2
  rw [castSext_second, Interval.mem_interval_iff, castSext_second_bound hlt,
    castSext_second_bound hlt]
  have hlower : (match a.second.lb with
      | .plusInfinity => .plusInfinity
      | .minusInfinity => .minusInfinity
      | .finite v => .finite ⟨sextBound target v.inner⟩ : Bound false target).rank ≤
        (Bound.finite (⟨x.signExtend target⟩ : BitInt false target)).rank := by
    cases hlb : a.second.lb with
    | plusInfinity => simp [hlb, Bound.rank] at hmem
    | minusInfinity => exact bot_le
    | finite v =>
        rw [hlb, Bound.rank_finite_le_finite] at hmem
        have hle : v.inner.toNat ≤ x.toNat := by simpa [BitInt.toInt] using hmem.1
        simpa [BitInt.toInt] using sextBound_le hlt hle
  simp only [hlower, true_and]
  cases hub : a.second.ub with
  | plusInfinity => simp [Bound.rank]
  | minusInfinity => simp [hub, Bound.rank] at hmem
  | finite v =>
      rw [hub, Bound.rank_finite_le_finite] at hmem
      have hle : x.toNat ≤ v.inner.toNat := by simpa [BitInt.toInt] using hmem.2
      simpa [BitInt.toInt] using le_sextBound_iff hlt hle

/-- Sign extension keeps the members of the signed component. -/
theorem signExtend_mem_first {a : DoubleInterval width} {x : BitVec width} (hx : x ∈ a)
    (hlt : width < target) :
    (⟨x.signExtend target⟩ : BitInt true target) ∈ Interval.convert a.first target := by
  have hmem := Interval.mem_convert_of_le hx.1 hlt.le
  simpa [BitInt.convert, hlt] using hmem

/-- **Sign extension is sound** up to a word, and beyond it when the low word of the upper end is
above the members. -/
theorem sextSound_iff (a : DoubleInterval width) (hpos : 0 < width) (hlt : width < target) :
    SextSound target a ↔ SextFits target a := by
  have hmem : ∀ x ∈ a, x.signExtend target ∈ castSext target a ↔
      ∀ v, a.second.ub = .finite v → target ≤ 64 ∨
        x.msb = false ∧ (width ≤ 64 ∨ x.toNat ≤ v.inner.toNat % 2 ^ 64) := by
    intro x hx
    rw [← signExtend_mem_second_iff hx hlt, castSext,
      DoubleInterval.mem_interval_iff (hpos.trans hlt)]
    constructor
    · rintro (htop | htop | ⟨-, hsecond⟩)
      · -- a top component is open above
        rw [Interval.isTop_convert] at htop
        have hub := (Interval.isTop_iff.mp (isTop_of_component (.inl htop)).2).2
        rw [signExtend_mem_second_iff hx hlt]
        intro v hv
        rw [hub] at hv
        exact absurd hv (by simp)
      · exact Interval.mem_of_isTop htop _
      · exact hsecond
    · intro hsecond
      exact .inr (.inr ⟨signExtend_mem_first hx hlt, hsecond⟩)
  unfold SextSound SextFits
  constructor
  · intro hsound
    cases hub : a.second.ub with
    | plusInfinity => exact .inl rfl
    | minusInfinity =>
        refine .inr (.inr ⟨fun x hx => ?_, .inr fun v hv => by simp at hv⟩)
        have := Interval.mem_iff.mp hx.2
        simp [hub, Bound.rank] at this
    | finite v =>
        right
        by_cases htarget : target ≤ 64
        · exact .inl htarget
        · right
          have hall : ∀ x ∈ a, x.msb = false ∧
              (width ≤ 64 ∨ x.toNat ≤ v.inner.toNat % 2 ^ 64) := fun x hx =>
            ((hmem x hx).mp (hsound x hx) v hub).resolve_left htarget
          refine ⟨fun x hx => (hall x hx).1, ?_⟩
          by_cases hwidth : width ≤ 64
          · exact .inl hwidth
          · right
            rintro v' ⟨rfl⟩ x hx
            exact (hall x hx).2.resolve_left hwidth
  · intro hfits x hx
    rw [hmem x hx]
    intro v hv
    rcases hfits with hub | htarget | ⟨hmsb, hwidth⟩
    · rw [hub] at hv
      exact absurd hv (by simp)
    · exact .inl htarget
    · exact .inr ⟨hmsb x hx, hwidth.imp_right fun h => h v hv x hx⟩

/-! ## Change of sign -/

/-- `cast(SIGN, …)` contains the reinterpretations of the members. -/
def SignSound {sign : Bool} (targetSigned : Bool) (a : Interval.Ptr sign width) : Prop :=
  ∀ x : BitVec width, (⟨x⟩ : BitInt sign width) ∈ a →
    (⟨x⟩ : BitInt targetSigned width) ∈ castSign targetSigned a

/-- The sign does not change; or the numbers fit a word and either all have one sign or the
interval is top; or the low words of the ends, read as numbers, enclose the members. -/
def SignFits {sign : Bool} (targetSigned : Bool) (a : Interval.Ptr sign width) : Prop :=
  if targetSigned = sign then True
  else if width ≤ 64 then
    (∃ x y : BitVec width, (⟨x⟩ : BitInt sign width) ∈ a ∧ (⟨y⟩ : BitInt sign width) ∈ a ∧
      x.msb = true ∧ y.msb = false) → a.isTop = true
  else
    ∀ x : BitVec width, (⟨x⟩ : BitInt sign width) ∈ a →
      (∀ v, a.lb = .finite v →
        ((v.inner.toNat % 2 ^ 64 : ℕ) : ℤ) ≤ (⟨x⟩ : BitInt targetSigned width).toInt) ∧
      ∀ v, a.ub = .finite v →
        (⟨x⟩ : BitInt targetSigned width).toInt ≤ ((v.inner.toNat % 2 ^ 64 : ℕ) : ℤ)

theorem toInt_msb (sign : Bool) (x : BitVec width) :
    (⟨x⟩ : BitInt sign width).toInt =
      if sign ∧ x.msb then (x.toNat : ℤ) - (2 ^ width : ℕ) else x.toNat := by
  cases sign
  · simp [BitInt.toInt]
  · simp only [BitInt.toInt, if_true, BitVec.toInt_eq_msb_cond, true_and]

/-- On numbers of one sign the two orders agree. -/
theorem toInt_le_iff_of_msb_eq {sign targetSigned : Bool} {x y : BitVec width}
    (h : x.msb = y.msb) :
    (⟨x⟩ : BitInt targetSigned width).toInt ≤ (⟨y⟩ : BitInt targetSigned width).toInt ↔
      (⟨x⟩ : BitInt sign width).toInt ≤ (⟨y⟩ : BitInt sign width).toInt := by
  simp only [toInt_msb, h]
  split <;> split <;> omega

/-- On numbers of different signs they do not. -/
theorem toInt_lt_of_msb_ne {sign targetSigned : Bool} (hne : targetSigned ≠ sign)
    {x y : BitVec width} (h : x.msb ≠ y.msb)
    (hle : (⟨x⟩ : BitInt sign width).toInt ≤ (⟨y⟩ : BitInt sign width).toInt) :
    (⟨y⟩ : BitInt targetSigned width).toInt < (⟨x⟩ : BitInt targetSigned width).toInt := by
  have hxlt := x.isLt
  have hylt := y.isLt
  have hx := @BitVec.msb_eq_true_iff_two_mul_ge _ x
  have hy := @BitVec.msb_eq_true_iff_two_mul_ge _ y
  simp only [toInt_msb] at hle ⊢
  generalize 2 ^ width = bound at *
  cases hxmsb : x.msb <;> cases hymsb : y.msb <;> cases sign <;> cases targetSigned <;>
    simp_all <;> omega

theorem cast_of_le {sign : Bool} (h : width ≤ 64) (targetSigned : Bool)
    (n : BitInt sign width) : n.cast targetSigned = ⟨n.inner⟩ := by
  have hmod : n.inner.toNat % 2 ^ 64 = n.inner.toNat :=
    Nat.mod_eq_of_lt (n.inner.isLt.trans_le (Nat.pow_le_pow_right two_pos h))
  rw [BitInt.cast, hmod, BitVec.ofNat_toNat, BitVec.setWidth_eq]

theorem toInt_cast_of_gt {sign : Bool} (h : 64 < width) (targetSigned : Bool)
    (n : BitInt sign width) :
    (n.cast targetSigned).toInt = ((n.inner.toNat % 2 ^ 64 : ℕ) : ℤ) := by
  have hword : n.inner.toNat % 2 ^ 64 < 2 ^ 64 := Nat.mod_lt _ (by norm_num)
  have hwidth : 2 ^ 65 ≤ 2 ^ width := Nat.pow_le_pow_right two_pos h
  have htoNat : (BitVec.ofNat width (n.inner.toNat % 2 ^ 64)).toNat = n.inner.toNat % 2 ^ 64 := by
    rw [BitVec.toNat_ofNat, Nat.mod_eq_of_lt (by omega)]
  have hmsb : (BitVec.ofNat width (n.inner.toNat % 2 ^ 64)).msb = false := by
    rw [BitVec.msb_eq_false_iff_two_mul_lt, htoNat]
    omega
  rw [BitInt.cast, toInt_msb, hmsb, htoNat]
  simp

/-- A change of sign keeps a member when the cast ends stay around it. -/
theorem mem_castSign_iff {sign targetSigned : Bool} (hne : targetSigned ≠ sign)
    {a : Interval.Ptr sign width} {x : BitVec width} (hx : (⟨x⟩ : BitInt sign width) ∈ a) :
    (⟨x⟩ : BitInt targetSigned width) ∈ castSign targetSigned a ↔
      (∀ v, a.lb = .finite v →
        (v.cast targetSigned).toInt ≤ (⟨x⟩ : BitInt targetSigned width).toInt) ∧
      ∀ v, a.ub = .finite v →
        (⟨x⟩ : BitInt targetSigned width).toInt ≤ (v.cast targetSigned).toInt := by
  have hmem := Interval.mem_iff.mp hx
  rw [castSign, dif_neg hne, Interval.mem_interval_iff]
  refine and_congr ?_ ?_
  · cases hlb : a.lb with
    | plusInfinity => simp [hlb, Bound.rank] at hmem
    | minusInfinity => simp [Bound.cast, Bound.rank]
    | finite v => simp [Bound.cast]
  · cases hub : a.ub with
    | plusInfinity => simp [Bound.cast, Bound.rank]
    | minusInfinity => simp [hub, Bound.rank] at hmem
    | finite v => simp [Bound.cast]

/-- **A change of sign is sound** exactly when the numbers have one sign or the interval is top;
for numbers beyond a word, when the low words of the ends enclose them. -/
theorem signSound_iff {sign : Bool} (targetSigned : Bool) (a : Interval.Ptr sign width) :
    SignSound targetSigned a ↔ SignFits targetSigned a := by
  unfold SignSound SignFits
  by_cases hsame : targetSigned = sign
  · subst hsame
    simp only [castSign, dif_pos, Interval.clone_eq, if_true, iff_true]
    exact fun x hx => hx
  rw [if_neg hsame]
  by_cases hwidth : width ≤ 64
  · rw [if_pos hwidth]
    -- the ends of the interval are members when it has one
    have hends : ∀ {x : BitVec width}, (⟨x⟩ : BitInt sign width) ∈ a →
        (∀ v, a.lb = .finite v → v ∈ a ∧ v.toInt ≤ (⟨x⟩ : BitInt sign width).toInt) ∧
        ∀ v, a.ub = .finite v → v ∈ a ∧ (⟨x⟩ : BitInt sign width).toInt ≤ v.toInt := by
      intro x hx
      have hmem := Interval.mem_iff.mp hx
      constructor
      · intro v hv
        have hle := hmem.1
        rw [hv] at hle
        exact ⟨Interval.mem_iff.mpr ⟨hv ▸ le_rfl, hle.trans hmem.2⟩,
          Bound.rank_finite_le_finite.mp hle⟩
      · intro v hv
        have hle := hmem.2
        rw [hv] at hle
        exact ⟨Interval.mem_iff.mpr ⟨hmem.1.trans hle, hv ▸ le_rfl⟩,
          Bound.rank_finite_le_finite.mp hle⟩
    constructor
    · rintro hsound ⟨x, y, hx, hy, hxmsb, hymsb⟩
      have hother : ∀ v : BitInt sign width, ∃ z : BitVec width, (⟨z⟩ : BitInt sign width) ∈ a ∧
          z.msb ≠ v.inner.msb := by
        intro v
        cases hv : v.inner.msb
        · exact ⟨x, hx, by simp [hxmsb]⟩
        · exact ⟨y, hy, by simp [hymsb]⟩
      rw [Interval.isTop_iff]
      constructor
      · cases hlb : a.lb with
        | minusInfinity => rfl
        | plusInfinity => simpa [hlb, Bound.rank] using (Interval.mem_iff.mp hx).1
        | finite v =>
            obtain ⟨z, hz, hmsb⟩ := hother v
            have hle := ((mem_castSign_iff hsame hz).mp (hsound z hz)).1 v hlb
            rw [cast_of_le hwidth] at hle
            exact absurd hle (not_le.mpr (toInt_lt_of_msb_ne hsame hmsb.symm
              ((hends hz).1 v hlb).2))
      · cases hub : a.ub with
        | plusInfinity => rfl
        | minusInfinity => simpa [hub, Bound.rank] using (Interval.mem_iff.mp hx).2
        | finite v =>
            obtain ⟨z, hz, hmsb⟩ := hother v
            have hle := ((mem_castSign_iff hsame hz).mp (hsound z hz)).2 v hub
            rw [cast_of_le hwidth] at hle
            exact absurd hle (not_le.mpr (toInt_lt_of_msb_ne hsame hmsb ((hends hz).2 v hub).2))
    · intro hfits x hx
      -- an end of the other sign would make the interval top
      have hmsb : ∀ v : BitInt sign width, v ∈ a → a.lb = .finite v ∨ a.ub = .finite v →
          v.inner.msb = x.msb := by
        intro v hv hend
        by_contra hne
        have htop : a.isTop = true := by
          cases hxmsb : x.msb
          · exact hfits ⟨v.inner, x, hv, hx, by simpa [hxmsb] using hne, hxmsb⟩
          · exact hfits ⟨x, v.inner, hx, hv, hxmsb, by simpa [hxmsb] using hne⟩
        obtain ⟨hlb, hub⟩ := Interval.isTop_iff.mp htop
        simp [hlb, hub] at hend
      rw [mem_castSign_iff hsame hx]
      refine ⟨fun v hv => ?_, fun v hv => ?_⟩
      · obtain ⟨hmem, hle⟩ := (hends hx).1 v hv
        rw [cast_of_le hwidth]
        exact (toInt_le_iff_of_msb_eq (hmsb v hmem (.inl hv))).mpr hle
      · obtain ⟨hmem, hle⟩ := (hends hx).2 v hv
        rw [cast_of_le hwidth]
        exact (toInt_le_iff_of_msb_eq (hmsb v hmem (.inr hv)).symm).mpr hle
  · rw [if_neg hwidth]
    refine forall_congr' fun x => forall_congr' fun hx => ?_
    rw [mem_castSign_iff hsame hx]
    simp only [toInt_cast_of_gt (Nat.lt_of_not_le hwidth)]

/-! ## Truncation -/

/-- `cast(TRUNC, …)` contains the low bits of the members. -/
def TruncSound (target : Nat) (a : DoubleInterval width) : Prop :=
  ∃ r, castTruncExt target a = some r ∧ ∀ x ∈ a, x.setWidth target ∈ r

/-- The signed values of the members that are negative, or that are not: they reach from the first
number to the second, when there are any. -/
def half (a : DoubleInterval width) (negative : Bool) : ℤ × ℤ :=
  if negative then
    (max a.first.lb.lowest (a.second.lb.lowest - 2 ^ width),
      min (-1) (min a.first.ub.highest (a.second.ub.highest - 2 ^ width)))
  else
    (max 0 (max a.first.lb.lowest a.second.lb.lowest),
      min a.first.ub.highest a.second.ub.highest)

/-- The cut ends of a component enclose the cut numbers from `p` to `q`: the numbers stay in one
window of the smaller width and the cut ends are around them, or they leave it and the cut ends are
the least and the greatest number. -/
def EndsEnclose {sign : Bool} (target : Nat) (a : Interval.Ptr sign width) (p q : ℤ) : Prop :=
  let cut := wrap (BitInt.minInt sign target) (2 ^ target)
  let window := turn (BitInt.minInt sign target) (2 ^ target)
  (∀ v, a.lb = .finite v →
      if window p = window q then cut v.toInt ≤ cut p else cut v.toInt = BitInt.minInt sign target) ∧
    ∀ v, a.ub = .finite v →
      if window p = window q then cut q ≤ cut v.toInt else cut v.toInt = BitInt.maxInt sign target

/-- The pair is top, or the cut ends enclose the negative members and the others; for one bit only
the unsigned component counts. -/
def TruncFits (target : Nat) (a : DoubleInterval width) : Prop :=
  a.isTop = true ∨ ∀ negative, (∃ x ∈ a, x.msb = negative) →
    EndsEnclose target a.second (half a negative).1 (half a negative).2 ∧
      (target ≠ 1 → EndsEnclose target a.first (half a negative).1 (half a negative).2)

theorem toInt_setWidth_wrap (sign : Bool) (h : target ≤ width) (x : BitVec width) (z : ℤ)
    (hz : z % 2 ^ width = x.toNat) :
    (⟨x.setWidth target⟩ : BitInt sign target).toInt =
      wrap (BitInt.minInt sign target) (2 ^ target) z := by
  refine (wrap_eq_of_mem (BitInt.minInt_le_toInt _) (BitInt.toInt_lt _) ?_).symm
  rw [BitInt.toInt_emod, BitVec.toNat_setWidth]
  have hdvd : (2 : ℤ) ^ target ∣ 2 ^ width := pow_dvd_pow 2 h
  rw [← Int.emod_emod_of_dvd z hdvd, hz]
  push_cast
  rfl

/-- The cut ends enclose a range exactly when they are around each cut number. -/
theorem endsEnclose_iff {sign : Bool} {a : Interval.Ptr sign width} {p q : ℤ} (hpq : p ≤ q) :
    EndsEnclose target a p q ↔ ∀ z, p ≤ z → z ≤ q →
      (∀ v, a.lb = .finite v → wrap (BitInt.minInt sign target) (2 ^ target) v.toInt ≤
        wrap (BitInt.minInt sign target) (2 ^ target) z) ∧
      ∀ v, a.ub = .finite v → wrap (BitInt.minInt sign target) (2 ^ target) z ≤
        wrap (BitInt.minInt sign target) (2 ^ target) v.toInt := by
  have hm := BitInt.two_pow_pos target
  have hlower : ∀ v : BitInt sign width, (if turn (BitInt.minInt sign target) (2 ^ target) p =
      turn (BitInt.minInt sign target) (2 ^ target) q then
        wrap (BitInt.minInt sign target) (2 ^ target) v.toInt ≤
          wrap (BitInt.minInt sign target) (2 ^ target) p
      else wrap (BitInt.minInt sign target) (2 ^ target) v.toInt = BitInt.minInt sign target) ↔
      ∀ z, p ≤ z → z ≤ q → wrap (BitInt.minInt sign target) (2 ^ target) v.toInt ≤
        wrap (BitInt.minInt sign target) (2 ^ target) z := fun v => by
    rw [forall_le_wrap_iff hm hpq]
    split
    · rfl
    · exact ⟨fun h => h.le, fun h => le_antisymm h (le_wrap hm _)⟩
  have hupper : ∀ v : BitInt sign width, (if turn (BitInt.minInt sign target) (2 ^ target) p =
      turn (BitInt.minInt sign target) (2 ^ target) q then
        wrap (BitInt.minInt sign target) (2 ^ target) q ≤
          wrap (BitInt.minInt sign target) (2 ^ target) v.toInt
      else wrap (BitInt.minInt sign target) (2 ^ target) v.toInt = BitInt.maxInt sign target) ↔
      ∀ z, p ≤ z → z ≤ q → wrap (BitInt.minInt sign target) (2 ^ target) z ≤
        wrap (BitInt.minInt sign target) (2 ^ target) v.toInt := fun v => by
    rw [forall_wrap_le_bound_iff hm hpq, BitInt.maxInt]
    split
    · rfl
    · have hlt : wrap (BitInt.minInt sign target) (2 ^ target) v.toInt <
          BitInt.minInt sign target + 2 ^ target := wrap_lt hm v.toInt
      exact ⟨fun h => h.ge, fun h => le_antisymm (by linarith) h⟩
  simp only [EndsEnclose, hlower, hupper]
  constructor
  · rintro ⟨hlb, hub⟩ z hp hq
    exact ⟨fun v hv => hlb v hv z hp hq, fun v hv => hub v hv z hp hq⟩
  · intro h
    exact ⟨fun v hv z hp hq => (h z hp hq).1 v hv, fun v hv z hp hq => (h z hp hq).2 v hv⟩

theorem mem_lowest_iff {sign : Bool} {i : Interval.Ptr sign width} (hne : ∃ y, y ∈ i)
    (x : BitInt sign width) : x ∈ i ↔ i.lb.lowest ≤ x.toInt ∧ x.toInt ≤ i.ub.highest := by
  rw [Interval.eq_interval i] at hne ⊢
  exact Interval.mem_iff_of_nonempty hne x

/-- The members of one sign are the numbers between the ends of `half`. -/
theorem mem_half_iff {a : DoubleInterval width} (hne : ∃ x, x ∈ a) (negative : Bool) (z : ℤ) :
    ((half a negative).1 ≤ z ∧ z ≤ (half a negative).2) ↔
      ∃ x ∈ a, x.msb = negative ∧ x.toInt = z := by
  obtain ⟨y, hy⟩ := hne
  have hmem : ∀ x : BitVec width, x ∈ a ↔
      (a.first.lb.lowest ≤ x.toInt ∧ x.toInt ≤ a.first.ub.highest) ∧
        a.second.lb.lowest ≤ x.toNat ∧ (x.toNat : ℤ) ≤ a.second.ub.highest := fun x => by
    rw [DoubleInterval.mem_def, mem_lowest_iff ⟨_, hy.1⟩, mem_lowest_iff ⟨_, hy.2⟩]
    simp [BitInt.toInt]
  have htoInt : ∀ x : BitVec width, x.toInt = if x.msb then (x.toNat : ℤ) - 2 ^ width else x.toNat :=
    fun x => by
      rw [BitVec.toInt_eq_msb_cond]
      push_cast
      rfl
  constructor
  · intro hz
    have hlow := Interval.minInt_le_lowest a.first.lb
    have hhigh := Interval.highest_le_maxInt a.first.ub
    have hbounds : BitInt.minInt true width ≤ z ∧ z ≤ BitInt.maxInt true width := by
      have hneg : (-1 : ℤ) ≤ BitInt.maxInt true width ∧ BitInt.minInt true width ≤ 0 := by
        have := BitInt.two_pow_pos width
        simp only [BitInt.maxInt, BitInt.minInt, if_true]
        omega
      cases negative <;> simp only [half, Bool.false_eq_true, if_true, if_false] at hz <;> omega
    obtain ⟨x, hx⟩ := BitInt.exists_toInt_eq hbounds.1 hbounds.2
    have hx' : x.inner.toInt = z := by simpa [BitInt.toInt] using hx
    have hmsb : x.inner.msb = negative := by
      rw [BitVec.msb_eq_toInt, hx']
      cases negative <;> simp only [half, Bool.false_eq_true, if_true, if_false] at hz <;>
        simp only [decide_eq_false_iff_not, decide_eq_true_eq] <;> omega
    refine ⟨x.inner, (hmem _).mpr ?_, hmsb, hx'⟩
    have htoNat := htoInt x.inner
    rw [hmsb, hx'] at htoNat
    rw [hx']
    cases negative <;> simp only [half, Bool.false_eq_true, if_true, if_false] at hz htoNat <;>
      omega
  · rintro ⟨x, hx, hmsb, rfl⟩
    have hsign := BitVec.msb_eq_toInt (x := x)
    have hconv := htoInt x
    have hbounds := (hmem x).mp hx
    rw [hmsb] at hconv hsign
    cases negative
    · simp only [half, Bool.false_eq_true, if_false] at hconv ⊢
      have hnonneg : 0 ≤ x.toInt := by simpa using hsign
      omega
    · simp only [half, if_true] at hconv ⊢
      have hnegative : x.toInt < 0 := by simpa using hsign
      omega

/-- Truncation keeps a member in a component when the cut ends are around the cut number. -/
theorem setWidth_mem_convert_iff {sign : Bool} (hlt : target < width) {a : Interval.Ptr sign width}
    {x : BitVec width} (hx : (⟨x⟩ : BitInt sign width) ∈ a) :
    (⟨x.setWidth target⟩ : BitInt sign target) ∈ Interval.convert a target ↔
      (∀ v, a.lb = .finite v → wrap (BitInt.minInt sign target) (2 ^ target) v.toInt ≤
        wrap (BitInt.minInt sign target) (2 ^ target) x.toInt) ∧
      ∀ v, a.ub = .finite v → wrap (BitInt.minInt sign target) (2 ^ target) x.toInt ≤
        wrap (BitInt.minInt sign target) (2 ^ target) v.toInt := by
  have hmem := Interval.mem_iff.mp hx
  have hbound : ∀ v : BitInt sign width, (v.convert target).toInt =
      wrap (BitInt.minInt sign target) (2 ^ target) v.toInt := fun v => by
    rw [BitInt.convert, if_neg hlt.not_gt]
    exact toInt_setWidth_wrap sign hlt.le _ _ (BitInt.toInt_emod v)
  have hvalue : (⟨x.setWidth target⟩ : BitInt sign target).toInt =
      wrap (BitInt.minInt sign target) (2 ^ target) x.toInt := by
    refine toInt_setWidth_wrap sign hlt.le _ _ ?_
    have hsigned := BitInt.toInt_emod (⟨x⟩ : BitInt true width)
    have hself : (⟨x⟩ : BitInt true width).toInt = x.toInt := by simp [BitInt.toInt]
    rw [hself] at hsigned
    exact hsigned
  rw [Interval.mem_convert_iff, ← hvalue]
  refine and_congr ?_ ?_
  · cases hlb : a.lb with
    | plusInfinity => simp [hlb, Bound.rank] at hmem
    | minusInfinity => simp [Bound.convert, Bound.rank]
    | finite v => simp [Bound.convert, hbound]
  · cases hub : a.ub with
    | plusInfinity => simp [Bound.convert, Bound.rank]
    | minusInfinity => simp [hub, Bound.rank] at hmem
    | finite v => simp [Bound.convert, hbound]

/-- The cut component contains all cut members exactly when its ends enclose both halves. -/
theorem forall_setWidth_mem_iff (hlt : target < width) {sign : Bool} {a : DoubleInterval width}
    {i : Interval.Ptr sign width} (hi : ∀ x ∈ a, (⟨x⟩ : BitInt sign width) ∈ i) :
    (∀ x ∈ a, (⟨x.setWidth target⟩ : BitInt sign target) ∈ Interval.convert i target) ↔
      ∀ negative, (∃ x ∈ a, x.msb = negative) →
        EndsEnclose target i (half a negative).1 (half a negative).2 := by
  constructor
  · rintro hall negative ⟨x, hx, hmsb⟩
    have hbetween := (mem_half_iff ⟨x, hx⟩ negative x.toInt).mpr ⟨x, hx, hmsb, rfl⟩
    rw [endsEnclose_iff (hbetween.1.trans hbetween.2)]
    intro z hp hq
    obtain ⟨y, hy, -, rfl⟩ := (mem_half_iff ⟨x, hx⟩ negative z).mp ⟨hp, hq⟩
    exact (setWidth_mem_convert_iff hlt (hi y hy)).mp (hall y hy)
  · intro hencloses x hx
    have hbetween := (mem_half_iff ⟨x, hx⟩ x.msb x.toInt).mpr ⟨x, hx, rfl, rfl⟩
    have h := hencloses x.msb ⟨x, hx, rfl⟩
    rw [endsEnclose_iff (hbetween.1.trans hbetween.2)] at h
    exact (setWidth_mem_convert_iff hlt (hi x hx)).mpr (h x.toInt hbetween.1 hbetween.2)

/-- **Truncation is sound exactly when the pair is top or the cut ends enclose both halves.** -/
theorem truncSound_iff (a : DoubleInterval width) (hpos : 0 < target) (hlt : target < width) :
    TruncSound target a ↔ TruncFits target a := by
  have hone : width ≠ 1 := by omega
  have hfirst := forall_setWidth_mem_iff hlt (fun x (hx : x ∈ a) => hx.1)
  have hsecond := forall_setWidth_mem_iff hlt (fun x (hx : x ∈ a) => hx.2)
  have htop : a.isTop = true → (Interval.convert a.second target).isTop = true := fun h => by
    rw [Interval.isTop_convert]
    exact (Bool.and_eq_true_iff.mp h).2
  unfold TruncSound TruncFits castTruncExt
  by_cases htarget : target = 1
  · subst htarget
    simp only [hone, if_false, if_true, Option.some.injEq, exists_eq_left', ne_eq,
      not_true_eq_false, false_implies, and_true]
    constructor
    · intro hsound
      exact .inr (hsecond.mp hsound)
    · rintro (h | h)
      · exact fun x _ => Interval.mem_of_isTop (htop h) _
      · exact hsecond.mpr h
  · simp only [hone, if_false, htarget, Option.some.injEq, exists_eq_left', ne_eq,
      not_false_eq_true, true_implies]
    have hmem : ∀ x : BitVec width, x.setWidth target ∈ CastResult.int (DoubleInterval.interval
        (Interval.convert a.first target) (Interval.convert a.second target)) ↔ _ := fun x =>
      DoubleInterval.mem_interval_iff hpos
    simp only [hmem, Interval.isTop_convert]
    constructor
    · intro hsound
      by_cases h : a.isTop = true
      · exact .inl h
      · right
        have hnone : a.first.isTop = false ∧ a.second.isTop = false := by
          by_contra hcomponent
          simp only [not_and_or, Bool.not_eq_false] at hcomponent
          exact h (Bool.and_eq_true_iff.mpr (isTop_of_component hcomponent))
        simp only [hnone.1, hnone.2, Bool.false_eq_true, false_or] at hsound
        exact fun negative hx => ⟨hsecond.mp (fun x hx => (hsound x hx).2) negative hx,
          hfirst.mp (fun x hx => (hsound x hx).1) negative hx⟩
    · rintro (h | h) x hx
      · exact .inl (Bool.and_eq_true_iff.mp h).1
      · exact .inr (.inr ⟨hfirst.mpr (fun negative hne => (h negative hne).2) x hx,
          hsecond.mpr (fun negative hne => (h negative hne).1) x hx⟩)

/-! ## All casts -/

/-- A cast as the interpreter makes it: a truncation, a zero extension, a sign extension, or a change
of sign of one interval. -/
inductive Cast where
  | trunc {width target : Nat} (h : 0 < target ∧ target < width) (a : DoubleInterval width)
  | ext {width target : Nat} (h : 0 < width ∧ width < target) (a : DoubleInterval width)
  | sext {width target : Nat} (h : 0 < width ∧ width < target) (a : DoubleInterval width)
  | sign {sign : Bool} {width : Nat} (targetSigned : Bool) (a : Interval.Ptr sign width)

/-- The result contains the casts of all members. -/
def Cast.Sound : Cast → Prop
  | @trunc _ target _ a => TruncSound target a
  | @ext _ target _ a => ExtSound target a
  | @sext _ target _ a => SextSound target a
  | sign targetSigned a => SignSound targetSigned a

/-- What the interval must be like for that. -/
def Cast.Fits : Cast → Prop
  | @trunc _ target _ a => TruncFits target a
  | ext _ a => ExtFits a
  | @sext _ target _ a => SextFits target a
  | sign targetSigned a => SignFits targetSigned a

/-- **When the integer casts are sound.** -/
theorem cast_sound_iff (c : Cast) : c.Sound ↔ c.Fits := by
  cases c with
  | trunc h a => exact truncSound_iff a h.1 h.2
  | ext h a => exact extSound_iff a h.1 h.2
  | sext h a => exact sextSound_iff a h.1 h.2
  | sign targetSigned a => exact signSound_iff targetSigned a

/-- The 8-bit number -1, whose zero extension to 16 bits is 255. -/
def minusOne : DoubleInterval 8 :=
  DoubleInterval.interval (Interval.interval (.finite ⟨255⟩) (.finite ⟨255⟩))
    (Interval.interval (.finite ⟨255⟩) (.finite ⟨255⟩))

/-- The zero extension of -1 is lost: the signed component is extended with its sign. -/
theorem ext_minusOne_unsound : ¬ ∀ c : Cast, c.Sound := by
  intro h
  obtain ⟨r, hr, hsound⟩ := h (@Cast.ext 8 16 ⟨by decide, by decide⟩ minusOne)
  have hlost : ∃ d : DoubleInterval 16, castTruncExt 16 minusOne = some (.int d) ∧
      decide ((255 : BitVec 8).setWidth 16 ∈ d) = false := ⟨_, rfl, by rfl⟩
  obtain ⟨d, hd, hlost⟩ := hlost
  obtain rfl : r = .int d := Option.some.inj (hr.symm.trans hd)
  have hmem : (255 : BitVec 8).setWidth 16 ∈ d := hsound 255 (by decide)
  exact of_decide_eq_false hlost hmem

end IntegerCasts

end Borealis
