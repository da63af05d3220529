import Borealis.Interpreter.IntervalLattice
import Borealis.PredicateAnalysis.DefaultPredicateAnalysis

/-!
# Comparisons of intervals

`apply(llvm::ConditionType, ConstPtr)` of `Interval` and of `DoubleInterval`.  A component compares
its bounds in its own order, and an operator of the other signedness is answered as if it were of
its own.  The pair joins the two answers, so a definite answer is one both components give, and the
component of the operator's signedness is right.
-/

namespace Borealis

namespace Interval

variable {sign : Bool} {width : Nat}

/-- `AbstractFactory::getBool(bool)`. -/
def getBool (value : Bool) : Ptr false 1 :=
  interval (.ofInt (if value then 1 else 0)) (.ofInt (if value then 1 else 0))

/-- `apply(llvm::ConditionType, ConstPtr)`. -/
def applyCondition (op : ConditionType) (this other : Ptr sign width) : Ptr false 1 :=
  if this.isTop || other.isTop then top
  else if this.isBottom || other.isBottom then top
  else
    match op with
    | .true => getBool true
    | .false => getBool false
    | .unknown => top
    | .eq =>
      if this.isConstant && other.isConstant then getBool (this.asConstant == other.asConstant)
      else if intersects this other then top
      else getBool false
    | .neq =>
      if this.isConstant && other.isConstant then getBool (this.asConstant != other.asConstant)
      else if intersects this other then top
      else getBool true
    | .ult | .lt => if intersects this other then top else getBool (this.ub.lt other.lb)
    | .ule | .le => if intersects this other then top else getBool (this.ub.leq other.lb)
    | .ugt | .gt => if intersects this other then top else getBool (other.ub.lt this.lb)
    | .uge | .ge => if intersects this other then top else getBool (other.ub.leq this.lb)

/-- The comparison an operator stands for, on the values of one signedness. -/
def compareValues : ConditionType → ℤ → ℤ → Option Bool
  | .eq, x, y => some (decide (x = y))
  | .neq, x, y => some (decide (x ≠ y))
  | .ult, x, y | .lt, x, y => some (decide (x < y))
  | .ule, x, y | .le, x, y => some (decide (x ≤ y))
  | .ugt, x, y | .gt, x, y => some (decide (y < x))
  | .uge, x, y | .ge, x, y => some (decide (y ≤ x))
  | .true, _, _ => some true
  | .false, _, _ => some false
  | .unknown, _, _ => none

/-! ## Definite answers -/

instance : DecidableEq (Ptr sign width) := fun a b =>
  decidable_of_iff (a.lb = b.lb ∧ a.ub = b.ub)
    ⟨fun h => ext_bounds h.1 h.2, fun h => h ▸ ⟨rfl, rfl⟩⟩

theorem getBool_inj : ∀ {v w : Bool}, getBool v = getBool w ↔ v = w := @(by decide)

theorem top_ne_getBool : ∀ v : Bool, (top : Ptr false 1) ≠ getBool v := by decide

theorem eq_of_join_getBool : ∀ p q v : Bool, join (getBool p) (getBool q) = getBool v →
    getBool p = getBool v ∧ getBool q = getBool v := by decide

theorem join_top_ne_getBool : ∀ p v : Bool,
    join (getBool p) top ≠ getBool v ∧ join top (getBool p) ≠ getBool v := by decide

/-- Two joined answers are definite when both are, and they agree. -/
theorem eq_of_join_eq_getBool {a b : Ptr false 1} {v : Bool}
    (ha : a = top ∨ ∃ p, a = getBool p) (hb : b = top ∨ ∃ q, b = getBool q)
    (h : join a b = getBool v) : a = getBool v ∧ b = getBool v := by
  rcases ha with rfl | ⟨p, rfl⟩
  · rcases hb with rfl | ⟨q, rfl⟩
    · rw [join_self] at h
      exact absurd h (top_ne_getBool v)
    · exact absurd h (join_top_ne_getBool q v).2
  · rcases hb with rfl | ⟨q, rfl⟩
    · exact absurd h (join_top_ne_getBool p v).1
    · exact eq_of_join_getBool p q v h

theorem applyCondition_cases (op : ConditionType) (a b : Ptr sign width) :
    applyCondition op a b = top ∨ ∃ v, applyCondition op a b = getBool v := by
  cases op <;> grind [applyCondition]

/-! ## The order of apart intervals -/

/-- Intervals that do not intersect lie one above the other. -/
theorem apart_of_not_intersects {a b : Ptr sign width} (h : intersects a b = false) :
    a.ub.rank < b.lb.rank ∨ b.ub.rank < a.lb.rank := by
  rw [intersects, Bool.or_eq_false_iff, Bool.and_eq_false_iff, Bool.and_eq_false_iff] at h
  simp only [← Bool.not_eq_true, Bound.leq_iff, not_le] at h
  obtain ⟨h₁ | h₁, h₂ | h₂⟩ := h
  · exact absurd (h₁.trans h₂) (lt_irrefl _)
  · exact Or.inr h₂
  · exact Or.inl h₁
  · rcases le_total a.lb.rank b.lb.rank with hle | hle
    · exact Or.inl h₁
    · exact Or.inr h₂

theorem toInt_lt_of_apart {a b : Ptr sign width} {x y : BitInt sign width} (hx : x ∈ a)
    (hy : y ∈ b) (h : a.ub.rank < b.lb.rank) : x.toInt < y.toInt := by
  have hlt := (mem_iff.mp hx).2.trans_lt (h.trans_le (mem_iff.mp hy).1)
  rw [← not_le, Bound.rank_finite_le_finite] at hlt
  exact not_le.mp hlt

/-- What the bounds of apart intervals say about their order. -/
structure Below (a b : Ptr sign width) (x y : BitInt sign width) : Prop where
  lt : x.toInt < y.toInt
  ub_lt : a.ub.lt b.lb = true
  ub_leq : a.ub.leq b.lb = true
  not_lt : b.ub.lt a.lb = false
  not_leq : b.ub.leq a.lb = false

theorem below_of_apart {a b : Ptr sign width} {x y : BitInt sign width} (hx : x ∈ a) (hy : y ∈ b)
    (h : a.ub.rank < b.lb.rank) : Below a b x y := by
  have hab : a.lb.rank < b.ub.rank :=
    (isBottom_eq_false_iff.mp hx.1).trans_lt (h.trans_le (isBottom_eq_false_iff.mp hy.1))
  refine ⟨toInt_lt_of_apart hx hy h, ?_, Bound.leq_iff.mpr h.le, ?_, ?_⟩
  · rw [Bound.lt, Bool.not_eq_true', ← Bool.not_eq_true, Bound.geq_iff]
    exact h.not_ge
  · rw [Bound.lt, Bool.not_eq_false', Bound.geq_iff]
    exact hab.le
  · rw [← Bool.not_eq_true, Bound.leq_iff]
    exact hab.not_ge

/-- **A component answers for the order of its own values.** -/
theorem applyCondition_sound {op : ConditionType} {a b : Ptr sign width} {v : Bool}
    (h : applyCondition op a b = getBool v) {x y : BitInt sign width} (hx : x ∈ a) (hy : y ∈ b) :
    compareValues op x.toInt y.toInt = some v := by
  have hbottom : (a.isBottom || b.isBottom) = false := by rw [hx.1, hy.1]; rfl
  unfold applyCondition at h
  split at h
  · exact absurd h (top_ne_getBool v)
  · rw [if_neg (by simp [hbottom])] at h
    have happart : intersects a b = false → Below a b x y ∨ Below b a y x := fun hdisjoint =>
      (apart_of_not_intersects hdisjoint).imp (below_of_apart hx hy)
        (below_of_apart hy hx)
    have hconstant : (a.isConstant && b.isConstant) = true →
        (a.asConstant == b.asConstant) = decide (x.toInt = y.toInt) := by
      intro hboth
      rw [Bool.and_eq_true] at hboth
      rw [← eq_asConstant hboth.1 hx, ← eq_asConstant hboth.2 hy]
      rw [decide_eq_decide.mpr BitInt.toInt_injective.eq_iff]
      rfl
    cases op with
    | true | false =>
        rw [getBool_inj] at h
        exact congrArg some h
    | unknown => exact absurd h (top_ne_getBool v)
    | eq | neq =>
        dsimp only at h
        split at h
        · next hboth =>
            rw [getBool_inj] at h
            simp [compareValues, ← h, hconstant hboth, bne]
        · split at h
          · exact absurd h (top_ne_getBool v)
          · next hdisjoint =>
              rw [getBool_inj] at h
              rcases happart (by simpa using hdisjoint) with hbelow | hbelow
              · simp [compareValues, ← h, hbelow.lt.ne]
              · simp [compareValues, ← h, hbelow.lt.ne']
    | lt | ult | le | ule | gt | ugt | ge | uge =>
        dsimp only at h
        split at h
        · exact absurd h (top_ne_getBool v)
        · next hdisjoint =>
            rw [getBool_inj] at h
            rcases happart (by simpa using hdisjoint) with hbelow | hbelow
            · simp [compareValues, ← h, hbelow.ub_lt, hbelow.ub_leq, hbelow.not_lt,
                hbelow.not_leq, hbelow.lt, hbelow.lt.le]
            · simp [compareValues, ← h, hbelow.ub_lt, hbelow.ub_leq, hbelow.not_lt,
                hbelow.not_leq, hbelow.lt, hbelow.lt.le]

end Interval

namespace DoubleInterval

variable {width : Nat}

/-- `apply(llvm::ConditionType, ConstPtr)`. -/
def applyCondition (op : ConditionType) (this other : DoubleInterval width) :
    Interval.Ptr false 1 :=
  Interval.join (Interval.applyCondition op this.first other.first)
    (Interval.applyCondition op this.second other.second)

/-- A comparison of machine integers is one of their signed or of their unsigned values. -/
theorem bvCompare_eq (op : ConditionType) (x y : BitVec width) :
    Meaning.bvCompare op x y =
        Interval.compareValues op (⟨x⟩ : BitInt true width).toInt
          (⟨y⟩ : BitInt true width).toInt ∨
      Meaning.bvCompare op x y =
        Interval.compareValues op (⟨x⟩ : BitInt false width).toInt
          (⟨y⟩ : BitInt false width).toInt := by
  cases op with
  | eq | neq =>
      refine Or.inl ?_
      simp [Meaning.bvCompare, Interval.compareValues, BitInt.toInt_injective.eq_iff]
  | lt | gt | le | ge =>
      refine Or.inl ?_
      simp [Meaning.bvCompare, Interval.compareValues, BitInt.toInt, BitVec.slt, BitVec.sle]
  | ult | ugt | ule | uge =>
      refine Or.inr ?_
      simp [Meaning.bvCompare, Interval.compareValues, BitInt.toInt, BitVec.ult, BitVec.ule]
  | true | false | unknown => exact Or.inl rfl

/-- **A definite answer is the answer for every pair of members.** -/
theorem applyCondition_definite {op : ConditionType} {a b : DoubleInterval width} {v : Bool}
    (h : applyCondition op a b = Interval.getBool v) {x y : BitVec width} (hx : x ∈ a)
    (hy : y ∈ b) : Meaning.bvCompare op x y = some v := by
  obtain ⟨hfirst, hsecond⟩ := Interval.eq_of_join_eq_getBool
    (Interval.applyCondition_cases op a.first b.first)
    (Interval.applyCondition_cases op a.second b.second) h
  rcases bvCompare_eq op x y with heq | heq
  · rw [heq]
    exact Interval.applyCondition_sound hfirst hx.1 hy.1
  · rw [heq]
    exact Interval.applyCondition_sound hsecond hx.2 hy.2

/-- Between `[1, 2]` and `[5, 6]`, of eight bits. -/
theorem applyCondition_definite_ult :
    applyCondition .ult
        (interval (Interval.interval (.ofInt 1) (.ofInt 2))
          (Interval.interval (.ofInt 1) (.ofInt 2)) : DoubleInterval 8)
        (interval (Interval.interval (.ofInt 5) (.ofInt 6))
          (Interval.interval (.ofInt 5) (.ofInt 6))) = Interval.getBool true ∧
      Meaning.bvCompare .ult (2 : BitVec 8) 5 = some true :=
  ⟨by decide, applyCondition_definite
    (a := interval (Interval.interval (.ofInt 1) (.ofInt 2))
      (Interval.interval (.ofInt 1) (.ofInt 2)))
    (b := interval (Interval.interval (.ofInt 5) (.ofInt 6))
      (Interval.interval (.ofInt 5) (.ofInt 6)))
    (by decide) (by decide) (by decide)⟩

end DoubleInterval

end Borealis
