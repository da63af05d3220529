import Borealis.Interpreter.IntervalBits

/-!
# Splitting an interval on a comparison

`splitByLess` and `splitByEq` of `Interpreter/Domain/Numerical/Interval.hpp` give the numbers of an
interval for which a comparison with another one may hold, and those for which it may fail.  Both
are sound (`splitByLess_sound`); here it is asked whether the parts are parts of the interval.

`splitByLess` takes the upper end of its true part and the lower end of its false part from the
other interval, without comparing them with its own.  So the parts stay inside only where the other
interval does not reach beyond this one.  `splitByEq` answers with the other interval where that is
a constant, whether this one contains it or not.
-/

namespace Borealis

namespace Interval

variable {sign : Bool} {width : Nat}

/-- The parts contain what the comparison asks for, and nothing but members of the interval. -/
structure Refines (holds : BitInt sign width → BitInt sign width → Prop) (a b : Ptr sign width)
    (split : Ptr sign width × Ptr sign width) : Prop where
  true_sound : ∀ x ∈ a, ∀ y ∈ b, holds x y → x ∈ split.1
  false_sound : ∀ x ∈ a, ∀ y ∈ b, ¬ holds x y → x ∈ split.2
  true_subset : ∀ x ∈ split.1, x ∈ a
  false_subset : ∀ x ∈ split.2, x ∈ a

theorem refines_self (holds : BitInt sign width → BitInt sign width → Prop)
    (a b : Ptr sign width) : Refines holds a b (a, a) :=
  ⟨fun _ hx _ _ _ => hx, fun _ hx _ _ _ => hx, fun _ hx => hx, fun _ hx => hx⟩

/-! ## Comparisons by order -/

/-- The other interval starts no lower, or spells the lowest number in another way. -/
def StartsWithin (a b : Ptr sign width) : Prop :=
  a.lb.rank ≤ b.lb.rank ∨
    b.lb = .minusInfinity ∧ a.lb = .finite (.ofValue (BitInt.minInt sign width))

/-- The other interval ends no higher, or spells the highest number in another way. -/
def EndsWithin (a b : Ptr sign width) : Prop :=
  b.ub.rank ≤ a.ub.rank ∨
    b.ub = .plusInfinity ∧ a.ub = .finite (.ofValue (BitInt.maxInt sign width))

theorem toInt_ofValue_minInt :
    (BitInt.ofValue (BitInt.minInt sign width) : BitInt sign width).toInt =
      BitInt.minInt sign width := by
  have hpos := BitInt.two_pow_pos width
  rw [BitInt.toInt_ofValue]
  exact Lib.wrap_eq_of_mem le_rfl (by linarith) rfl

theorem toInt_ofValue_maxInt :
    (BitInt.ofValue (BitInt.maxInt sign width) : BitInt sign width).toInt =
      BitInt.maxInt sign width := by
  have hpos := BitInt.two_pow_pos width
  rw [BitInt.toInt_ofValue]
  exact Lib.wrap_eq_of_mem (by simp only [BitInt.maxInt]; linarith)
    (by simp only [BitInt.maxInt]; linarith) rfl

/-- An interval that is narrowed has finite ends on the sides it loses. -/
theorem ends_of_narrows {a b : Ptr sign width} (h : Narrows a b) :
    a.lb ≠ .plusInfinity ∧ a.ub ≠ .minusInfinity := by
  obtain ⟨ha, hb, hleq, hbelow, habove⟩ := h
  have hends := isBottom_eq_false_iff.mp ha
  have hb' : a.lb.rank ≤ b.ub.rank := by
    simpa [Bound.lt, Bound.geq_iff] using habove
  have ha' : b.lb.rank ≤ a.ub.rank := by
    simpa [Bound.lt, Bound.geq_iff] using hbelow
  have hnot : ¬ (b.lb.rank ≤ a.lb.rank ∧ a.ub.rank ≤ b.ub.rank) := fun hle =>
    Bool.false_ne_true (hleq.symm.trans ((leq_iff ha hb).mpr hle))
  constructor
  · intro hlb
    rw [hlb] at hb'
    refine hnot ⟨?_, (Bound.rank_le_plusInfinity _).trans hb'⟩
    rw [hlb]
    exact Bound.rank_le_plusInfinity _
  · intro hub
    rw [hub] at ha'
    refine hnot ⟨ha'.trans bot_le, ?_⟩
    rw [hub]
    exact bot_le

/-- The false part starts inside the interval exactly if the other interval does. -/
theorem startsWithin_iff {a b : Ptr sign width} (h : Narrows a b) :
    (∀ x ∈ interval b.lb a.ub, x ∈ a) ↔ StartsWithin a b := by
  have hends := isBottom_eq_false_iff.mp h.1
  simp only [mem_interval_iff]
  simp only [mem_iff]
  constructor
  · intro hall
    by_contra hnot
    obtain ⟨hlt, hmin⟩ := not_or.mp hnot
    rw [not_le] at hlt
    cases hlb : a.lb with
    | plusInfinity => exact (ends_of_narrows h).1 hlb
    | minusInfinity => rw [hlb] at hlt; exact not_lt_bot hlt
    | finite v =>
        rw [hlb] at hlt hends hall hmin
        cases hlb' : b.lb with
        | plusInfinity => rw [hlb'] at hlt; exact absurd hlt (by simp [Bound.rank])
        | minusInfinity =>
            have hle : (Bound.finite (BitInt.ofValue (BitInt.minInt sign width) :
                BitInt sign width)).rank ≤
                (Bound.finite v).rank := by
              rw [Bound.rank_finite_le_finite, toInt_ofValue_minInt]
              exact v.minInt_le_toInt
            have hback := (hall (.ofValue (BitInt.minInt sign width))
              ⟨by rw [hlb']; exact bot_le, hle.trans hends⟩).1
            rw [Bound.rank_finite_le_finite] at hle hback
            exact hmin ⟨hlb', congrArg _ (BitInt.toInt_injective (le_antisymm hback hle))⟩
        | finite w =>
            rw [hlb'] at hlt hall
            exact absurd (hall w ⟨le_rfl, hlt.le.trans hends⟩).1 (not_le.mpr hlt)
  · rintro (hle | ⟨-, hlb⟩) x ⟨hx, hx'⟩
    · exact ⟨hle.trans hx, hx'⟩
    · refine ⟨?_, hx'⟩
      rw [hlb, Bound.rank_finite_le_finite, toInt_ofValue_minInt]
      exact x.minInt_le_toInt

/-- The true part ends inside the interval exactly if the other interval does. -/
theorem endsWithin_iff {a b : Ptr sign width} (h : Narrows a b) :
    (∀ x ∈ interval a.lb b.ub, x ∈ a) ↔ EndsWithin a b := by
  have hends := isBottom_eq_false_iff.mp h.1
  simp only [mem_interval_iff]
  simp only [mem_iff]
  constructor
  · intro hall
    by_contra hnot
    obtain ⟨hlt, hmax⟩ := not_or.mp hnot
    rw [not_le] at hlt
    cases hub : a.ub with
    | minusInfinity => exact (ends_of_narrows h).2 hub
    | plusInfinity =>
        rw [hub] at hlt
        exact absurd hlt (not_lt.mpr (Bound.rank_le_plusInfinity _))
    | finite v =>
        rw [hub] at hlt hends hall hmax
        cases hub' : b.ub with
        | minusInfinity => rw [hub'] at hlt; exact not_lt_bot hlt
        | plusInfinity =>
            have hle : (Bound.finite v).rank ≤
                (Bound.finite (BitInt.ofValue (BitInt.maxInt sign width) :
                  BitInt sign width)).rank := by
              rw [Bound.rank_finite_le_finite, toInt_ofValue_maxInt]
              exact v.toInt_le_maxInt
            have hback := (hall (.ofValue (BitInt.maxInt sign width))
              ⟨hends.trans hle, by rw [hub']; exact Bound.rank_le_plusInfinity _⟩).2
            rw [Bound.rank_finite_le_finite] at hle hback
            exact hmax ⟨hub', congrArg _ (BitInt.toInt_injective (le_antisymm hle hback))⟩
        | finite w =>
            rw [hub'] at hlt hall
            exact absurd (hall w ⟨hends.trans hlt.le, le_rfl⟩).2 (not_le.mpr hlt)
  · rintro (hle | ⟨-, hub⟩) x ⟨hx, hx'⟩
    · exact ⟨hx, hx'.trans hle⟩
    · refine ⟨hx, ?_⟩
      rw [hub, Bound.rank_finite_le_finite, toInt_ofValue_maxInt]
      exact x.toInt_le_maxInt

/-- When `splitByLess` gives parts of the interval. -/
theorem refines_splitByLess_iff (a b : Ptr sign width) :
    Refines (fun x y => x.toInt < y.toInt) a b (splitByLess a b) ↔
      (Narrows a b → StartsWithin a b ∧ EndsWithin a b) := by
  by_cases h : Narrows a b
  · have hsplit := splitByLess_of_narrows h
    constructor
    · intro hrefines _
      have htrue := hrefines.true_subset
      have hfalse := hrefines.false_subset
      rw [hsplit] at htrue hfalse
      exact ⟨(startsWithin_iff h).mp hfalse, (endsWithin_iff h).mp htrue⟩
    · intro hwithin
      obtain ⟨hstarts, hends⟩ := hwithin h
      refine ⟨fun x hx y hy => (splitByLess_sound hx hy).1,
        fun x hx y hy hnot => (splitByLess_sound hx hy).2 (not_lt.mp hnot), ?_, ?_⟩
      · rw [hsplit]
        exact (endsWithin_iff h).mpr hends
      · rw [hsplit]
        exact (startsWithin_iff h).mpr hstarts
  · rw [splitByLess_of_not_narrows h]
    exact ⟨fun _ hnarrows => absurd hnarrows h, fun _ => refines_self _ a b⟩

/-! ## Comparisons by equality -/

/-- The other interval is a constant that this one contains. -/
def ContainsConstant (a b : Ptr sign width) : Prop :=
  a.isBottom = false → b.isConstant = true → b.lb.isFinite = true → b.asConstant ∈ a

/-- The constant of a constant interval is its member. -/
theorem asConstant_mem {b : Ptr sign width} (hconstant : b.isConstant = true)
    (hfinite : b.lb.isFinite = true) : b.asConstant ∈ b := by
  have hbounds : b.lb = b.ub := by simpa [isConstant] using hconstant
  rw [asConstant, mem_iff, ← hbounds]
  cases h : b.lb with
  | finite v => exact ⟨le_rfl, le_rfl⟩
  | plusInfinity => rw [h] at hfinite; cases hfinite
  | minusInfinity => rw [h] at hfinite; cases hfinite

theorem isFinite_of_mem {b : Ptr sign width} (hconstant : b.isConstant = true)
    {x : BitInt sign width} (hx : x ∈ b) : b.lb.isFinite = true := by
  have hbounds : b.lb = b.ub := by simpa [isConstant] using hconstant
  obtain ⟨hlb, hub⟩ := mem_iff.mp hx
  rw [← hbounds] at hub
  cases h : b.lb with
  | finite v => rfl
  | plusInfinity => rw [h] at hlb; simp [Bound.rank] at hlb
  | minusInfinity => rw [h] at hub; simp [Bound.rank] at hub

/-- When `splitByEq` gives parts of the interval. -/
theorem refines_splitByEq_iff (a b : Ptr sign width) :
    Refines (fun x y => x = y) a b (splitByEq a b) ↔
      (b.isBottom = false → ContainsConstant a b) := by
  unfold splitByEq
  rw [clone_eq, clone_eq]
  split
  · next hbottom =>
      refine ⟨fun _ hb ha => ?_, fun _ => refines_self _ a b⟩
      simp [ha, hb] at hbottom
  next hbottom =>
  simp only [Bool.or_eq_true, not_or, Bool.not_eq_true] at hbottom
  split
  · next hconstant =>
      constructor
      · intro hrefines _ _ _ hfinite
        exact hrefines.true_subset _ (asConstant_mem hconstant hfinite)
      · intro hcontains
        refine ⟨fun x hx y hy heq => heq ▸ hy, fun x hx _ _ _ => hx, fun x hx => ?_,
          fun x hx => hx⟩
        rw [eq_asConstant hconstant hx]
        exact hcontains hbottom.2 hbottom.1 hconstant (isFinite_of_mem hconstant hx)
  · next hconstant =>
      exact ⟨fun _ _ _ h => absurd h hconstant, fun _ => refines_self _ a b⟩

/-! ## When the splits refine -/

/-- Both splits are sound, and their parts are parts of the interval. -/
def SplitsRefine (a b : Ptr sign width) : Prop :=
  Refines (fun x y => x.toInt < y.toInt) a b (splitByLess a b) ∧
    Refines (fun x y => x = y) a b (splitByEq a b)

/-- **The splits refine exactly where the other interval does not reach beyond this one**, if it
narrows it, and is no constant outside of it. -/
theorem splitsRefine_iff (a b : Ptr sign width) :
    SplitsRefine a b ↔ (Narrows a b → StartsWithin a b ∧ EndsWithin a b) ∧
      (b.isBottom = false → ContainsConstant a b) := by
  rw [SplitsRefine, refines_splitByLess_iff, refines_splitByEq_iff]

/-- The numbers from 5 to 10 that are less than some number from 7 to 20: the true part ends
at 20. -/
theorem splitsRefine_fails :
    ¬ ∀ (sign : Bool) (width : Nat) (a b : Ptr sign width), a.isBottom = false →
      b.isBottom = false → SplitsRefine a b := by
  intro hclaim
  have hsplits := hclaim false 8 (interval (.ofInt 5) (.ofInt 10))
    (interval (.ofInt 7) (.ofInt 20)) (by decide) (by decide)
  have hmem := hsplits.1.true_subset (.ofInt 20) (by decide)
  revert hmem
  decide

end Interval

end Borealis
