import Borealis.Interpreter.Interval

/-!
# Interval addition, subtraction and multiplication

The bounds of a sum are the sums of the bounds, taken in machine arithmetic.  When the sums of the
machine integers of two intervals fit one window of `2 ^ width` integers the wrapped bounds are
the bounds of the wrapped sums.  Otherwise some sums wrap to the least and to the greatest value,
and a finite bound of the result is right only if it is that value.  `Fits` is this condition;
`sound_add_iff` and `sound_sub_iff` show that it is exact.

The product of an infinite bound and a number is the infinite bound, whatever the sign of the
number, so the corner products of a multiplication bound the others only if the dropped corners
are bounded by the finite ones.  `MulFits` asks for that and for the absence of wrapping; it is
exact when no corner wraps.
-/

namespace Borealis

open Lib

namespace Bound

variable {sign : Bool} {width : Nat}

/-- The least machine integer above a lower bound. -/
def lowest : Bound sign width → ℤ
  | finite value => value.toInt
  | _ => BitInt.minInt sign width

/-- The greatest machine integer below an upper bound. -/
def highest : Bound sign width → ℤ
  | finite value => value.toInt
  | _ => BitInt.maxInt sign width

theorem add_lower {l l' : Bound sign width} (hl : l = minusInfinity ∨ ∃ v, l = finite v)
    (hl' : l' = minusInfinity ∨ ∃ v, l' = finite v) :
    (l + l' = minusInfinity ∨ l + l' = finite (.ofValue (l.lowest + l'.lowest))) ∧
      (l + l' = minusInfinity ↔ l = minusInfinity ∨ l' = minusInfinity) := by
  rcases hl with rfl | ⟨v, rfl⟩ <;> rcases hl' with rfl | ⟨w, rfl⟩ <;>
    simp [lowest, BitInt.add_eq_ofValue]

theorem add_upper {u u' : Bound sign width} (hu : u = plusInfinity ∨ ∃ v, u = finite v)
    (hu' : u' = plusInfinity ∨ ∃ v, u' = finite v) :
    (u + u' = plusInfinity ∨ u + u' = finite (.ofValue (u.highest + u'.highest))) ∧
      (u + u' = plusInfinity ↔ u = plusInfinity ∨ u' = plusInfinity) := by
  rcases hu with rfl | ⟨v, rfl⟩ <;> rcases hu' with rfl | ⟨w, rfl⟩ <;>
    simp [highest, BitInt.add_eq_ofValue]

theorem sub_lower {l u' : Bound sign width} (hl : l = minusInfinity ∨ ∃ v, l = finite v)
    (hu' : u' = plusInfinity ∨ ∃ v, u' = finite v) :
    (l - u' = minusInfinity ∨ l - u' = finite (.ofValue (l.lowest - u'.highest))) ∧
      (l - u' = minusInfinity ↔ l = minusInfinity ∨ u' = plusInfinity) := by
  rcases hl with rfl | ⟨v, rfl⟩ <;> rcases hu' with rfl | ⟨w, rfl⟩ <;>
    simp [lowest, highest, BitInt.sub_eq_ofValue]

theorem sub_upper {u l' : Bound sign width} (hu : u = plusInfinity ∨ ∃ v, u = finite v)
    (hl' : l' = minusInfinity ∨ ∃ v, l' = finite v) :
    (u - l' = plusInfinity ∨ u - l' = finite (.ofValue (u.highest - l'.lowest))) ∧
      (u - l' = plusInfinity ↔ u = plusInfinity ∨ l' = minusInfinity) := by
  rcases hu with rfl | ⟨v, rfl⟩ <;> rcases hl' with rfl | ⟨w, rfl⟩ <;>
    simp [lowest, highest, BitInt.sub_eq_ofValue]

/-- The integer product of two finite bounds. -/
def product : Bound sign width → Bound sign width → Option ℤ
  | finite x, finite y => some (x.toInt * y.toInt)
  | _, _ => none

theorem eq_of_product {p q : Bound sign width} {c : ℤ} (h : p.product q = some c) :
    c = p.lowest * q.lowest ∧ c = p.highest * q.lowest ∧ c = p.lowest * q.highest ∧
      c = p.highest * q.highest := by
  cases p <;> cases q <;> simp_all [product, lowest, highest]

end Bound

namespace Interval

variable {sign : Bool} {width : Nat}

/-! ## Membership -/

theorem mem_interval_iff {lb ub : Bound sign width} {x : BitInt sign width} :
    x ∈ interval lb ub ↔ lb.rank ≤ (Bound.finite x).rank ∧ (Bound.finite x).rank ≤ ub.rank := by
  have hcontains : (ofBounds lb ub).contains x = true ↔
      lb.rank ≤ (Bound.finite x).rank ∧ (Bound.finite x).rank ≤ ub.rank := by
    simp [contains, ofBounds, Bound.leq_iff]
  refine ⟨fun h => hcontains.mp h.2, fun h => ⟨?_, hcontains.mpr h⟩⟩
  have hleq : lb.leq ub = true := Bound.leq_iff.mpr (h.1.trans h.2)
  simp [interval, ofBounds, Bound.gt, hleq]

/-- The bounds of an interval that contains a machine integer. -/
theorem bounds_of_mem {lb ub : Bound sign width} (h : ∃ x, x ∈ interval lb ub) :
    (lb = .minusInfinity ∨ ∃ v, lb = .finite v) ∧ (ub = .plusInfinity ∨ ∃ v, ub = .finite v) := by
  obtain ⟨x, hx⟩ := h
  obtain ⟨hlb, hub⟩ := mem_interval_iff.mp hx
  cases lb <;> cases ub <;> simp_all [Bound.rank]

/-- An interval that contains a machine integer contains those between its ends. -/
theorem mem_iff_of_nonempty {lb ub : Bound sign width} (h : ∃ x, x ∈ interval lb ub)
    (x : BitInt sign width) : x ∈ interval lb ub ↔ lb.lowest ≤ x.toInt ∧ x.toInt ≤ ub.highest := by
  have hmin := x.minInt_le_toInt
  have hmax := x.toInt_le_maxInt
  rw [mem_interval_iff]
  obtain ⟨rfl | ⟨v, rfl⟩, rfl | ⟨w, rfl⟩⟩ := bounds_of_mem h <;>
    simp [Bound.rank, Bound.lowest, Bound.highest, hmin, hmax]

theorem minInt_le_lowest (b : Bound sign width) : BitInt.minInt sign width ≤ b.lowest := by
  cases b <;> simp [Bound.lowest, BitInt.minInt_le_toInt]

theorem highest_le_maxInt (b : Bound sign width) : b.highest ≤ BitInt.maxInt sign width := by
  cases b <;> simp [Bound.highest, BitInt.toInt_le_maxInt]

theorem lowest_le_highest {lb ub : Bound sign width} (h : ∃ x, x ∈ interval lb ub) :
    lb.lowest ≤ ub.highest := by
  obtain ⟨x, hx⟩ := h
  have := (mem_iff_of_nonempty ⟨x, hx⟩ x).mp hx
  exact this.1.trans this.2

/-- Every integer between the ends is the value of a member. -/
theorem exists_mem_toInt {lb ub : Bound sign width} (h : ∃ x, x ∈ interval lb ub) {z : ℤ}
    (hlo : lb.lowest ≤ z) (hhi : z ≤ ub.highest) : ∃ x ∈ interval lb ub, x.toInt = z := by
  obtain ⟨x, rfl⟩ :=
    BitInt.exists_toInt_eq ((minInt_le_lowest lb).trans hlo) (hhi.trans (highest_le_maxInt ub))
  exact ⟨x, (mem_iff_of_nonempty h x).mpr ⟨hlo, hhi⟩, rfl⟩

/-! ## Ranges of sums and differences -/

/-- The range `[L, U]` of integers, wrapped, lies between its wrapped ends: it fits one window,
or each wrapped end is absent (`lowFree`, `highFree`) or the extreme value. -/
def Fits (sign : Bool) (width : Nat) (L U : ℤ) (lowFree highFree : Prop) : Prop :=
  turn (BitInt.minInt sign width) (2 ^ width) L = turn (BitInt.minInt sign width) (2 ^ width) U ∨
    (lowFree ∨ wrap (BitInt.minInt sign width) (2 ^ width) L = BitInt.minInt sign width) ∧
      (highFree ∨ wrap (BitInt.minInt sign width) (2 ^ width) U = BitInt.maxInt sign width)

/-- An interval whose finite bounds are the wrapped ends of a range contains the wrapped range
exactly when the range fits. -/
theorem forall_ofValue_mem_iff {lb ub : Bound sign width} {L U : ℤ} (hLU : L ≤ U)
    (hlb : lb = .minusInfinity ∨ lb = .finite (.ofValue L))
    (hub : ub = .plusInfinity ∨ ub = .finite (.ofValue U)) :
    (∀ z, L ≤ z → z ≤ U → BitInt.ofValue z ∈ interval lb ub) ↔
      Fits sign width L U (lb = .minusInfinity) (ub = .plusInfinity) := by
  have hm := BitInt.two_pow_pos width
  have hge := @forall_wrap_ge_iff (BitInt.minInt sign width) _ _ _ hm hLU
  have hle := @forall_wrap_le_iff (BitInt.minInt sign width) _ _ _ hm hLU
  simp only [mem_interval_iff, Fits, BitInt.maxInt]
  rcases hlb with rfl | rfl <;> rcases hub with rfl | rfl
  · simp [Bound.rank]
  · simpa [Bound.rank, BitInt.toInt_ofValue] using hle
  · simpa [Bound.rank, BitInt.toInt_ofValue] using hge
  · simp only [Bound.rank_finite_le_finite, BitInt.toInt_ofValue, reduceCtorEq, false_or,
      forall_and, hge, hle]
    exact or_and_left.symm

/-- The result of an operation contains the wrapped result for all members of the operands. -/
def Sound (opcode : ArithType) (f : BitInt sign width → BitInt sign width → BitInt sign width)
    (a b : Ptr sign width) : Prop :=
  ∃ r, apply opcode a b = some r ∧ ∀ x ∈ a, ∀ y ∈ b, f x y ∈ r

/-- A member rules out the flag `isBottom`. -/
theorem isBottom_eq_false {a : Ptr sign width} (h : ∃ x, x ∈ a) : a.isBottom = false := by
  obtain ⟨x, hx⟩ := h
  exact hx.1

/-- Every integer between the sums of the ends is the sum of two members. -/
theorem exists_add_eq {l u l' u' z : ℤ} (hlu : l ≤ u) (hlu' : l' ≤ u') (hlo : l + l' ≤ z)
    (hhi : z ≤ u + u') : ∃ s t, l ≤ s ∧ s ≤ u ∧ l' ≤ t ∧ t ≤ u' ∧ s + t = z := by
  rcases le_total (z - l') u with h | h
  · exact ⟨z - l', l', by linarith, h, le_rfl, hlu', by ring⟩
  · exact ⟨u, z - u, hlu, le_rfl, by linarith, by linarith, by ring⟩

/-- `x + y`, `x - y` of the members of two intervals run through all integers between the sums of
the ends; so an operation that computes a wrapped sum of values is sound exactly when every
integer of the range wraps into the result. -/
theorem forall_mem_ofValue_iff {la ua lb ub lr ur : Bound sign width}
    (ha : ∃ x, x ∈ interval la ua) (hb : ∃ y, y ∈ interval lb ub) :
    (∀ x ∈ interval la ua, ∀ y ∈ interval lb ub, x + y ∈ interval lr ur) ↔
      ∀ z, la.lowest + lb.lowest ≤ z → z ≤ ua.highest + ub.highest →
        BitInt.ofValue z ∈ interval lr ur := by
  constructor
  · intro h z hlo hhi
    obtain ⟨s, t, hs, hs', ht, ht', rfl⟩ :=
      exists_add_eq (lowest_le_highest ha) (lowest_le_highest hb) hlo hhi
    obtain ⟨x, hx, rfl⟩ := exists_mem_toInt ha hs hs'
    obtain ⟨y, hy, rfl⟩ := exists_mem_toInt hb ht ht'
    rw [← BitInt.add_eq_ofValue]
    exact h x hx y hy
  · intro h x hx y hy
    have hx' := (mem_iff_of_nonempty ha x).mp hx
    have hy' := (mem_iff_of_nonempty hb y).mp hy
    rw [BitInt.add_eq_ofValue]
    exact h _ (by linarith) (by linarith)

theorem forall_mem_sub_ofValue_iff {la ua lb ub lr ur : Bound sign width}
    (ha : ∃ x, x ∈ interval la ua) (hb : ∃ y, y ∈ interval lb ub) :
    (∀ x ∈ interval la ua, ∀ y ∈ interval lb ub, x - y ∈ interval lr ur) ↔
      ∀ z, la.lowest - ub.highest ≤ z → z ≤ ua.highest - lb.lowest →
        BitInt.ofValue z ∈ interval lr ur := by
  constructor
  · intro h z hlo hhi
    obtain ⟨s, t, hs, hs', ht, ht', rfl⟩ := exists_add_eq (lowest_le_highest ha)
      (neg_le_neg (lowest_le_highest hb)) (by linarith) (by linarith : z ≤ _)
    obtain ⟨x, hx, rfl⟩ := exists_mem_toInt ha hs hs'
    obtain ⟨y, hy, hty⟩ := exists_mem_toInt hb (z := -t) (by linarith) (by linarith)
    have : x.toInt + t = x.toInt - y.toInt := by rw [hty]; ring
    rw [this, ← BitInt.sub_eq_ofValue]
    exact h x hx y hy
  · intro h x hx y hy
    have hx' := (mem_iff_of_nonempty ha x).mp hx
    have hy' := (mem_iff_of_nonempty hb y).mp hy
    rw [BitInt.sub_eq_ofValue]
    exact h _ (by linarith) (by linarith)

/-- When `apply(ADD, b)` of `a` is right: the sums of the ends fit. -/
def AddFits (a b : Ptr sign width) : Prop :=
  Fits sign width (a.lb.lowest + b.lb.lowest) (a.ub.highest + b.ub.highest)
    (a.lb = .minusInfinity ∨ b.lb = .minusInfinity)
    (a.ub = .plusInfinity ∨ b.ub = .plusInfinity)

/-- When `apply(SUB, b)` of `a` is right: the differences of the ends fit. -/
def SubFits (a b : Ptr sign width) : Prop :=
  Fits sign width (a.lb.lowest - b.ub.highest) (a.ub.highest - b.lb.lowest)
    (a.lb = .minusInfinity ∨ b.ub = .plusInfinity)
    (a.ub = .plusInfinity ∨ b.lb = .minusInfinity)

theorem sound_add_iff {a b : Ptr sign width} (ha : ∃ x, x ∈ a) (hb : ∃ y, y ∈ b) :
    Sound .add (· + ·) a b ↔ AddFits a b := by
  have happly : apply .add a b =
      some (interval (a.lb + b.lb) (a.ub + b.ub)) := by
    simp [apply, add, isBottom_eq_false ha, isBottom_eq_false hb, clone]
  simp only [Sound, happly, Option.some.injEq, exists_eq_left']
  rw [eq_interval a] at ha
  rw [eq_interval b] at hb
  obtain ⟨hla, hua⟩ := bounds_of_mem ha
  obtain ⟨hlb, hub⟩ := bounds_of_mem hb
  obtain ⟨hlow, hlowInf⟩ := Bound.add_lower hla hlb
  obtain ⟨hhigh, hhighInf⟩ := Bound.add_upper hua hub
  have hLU := add_le_add (lowest_le_highest ha) (lowest_le_highest hb)
  rw [AddFits, ← hlowInf, ← hhighInf, ← forall_ofValue_mem_iff hLU hlow hhigh,
    ← forall_mem_ofValue_iff ha hb, ← eq_interval a, ← eq_interval b]

theorem sound_sub_iff {a b : Ptr sign width} (ha : ∃ x, x ∈ a) (hb : ∃ y, y ∈ b) :
    Sound .sub (· - ·) a b ↔ SubFits a b := by
  have happly : apply .sub a b =
      some (interval (a.lb - b.ub) (a.ub - b.lb)) := by
    simp [apply, sub, isBottom_eq_false ha, isBottom_eq_false hb, clone]
  simp only [Sound, happly, Option.some.injEq, exists_eq_left']
  rw [eq_interval a] at ha
  rw [eq_interval b] at hb
  obtain ⟨hla, hua⟩ := bounds_of_mem ha
  obtain ⟨hlb, hub⟩ := bounds_of_mem hb
  obtain ⟨hlow, hlowInf⟩ := Bound.sub_lower hla hub
  obtain ⟨hhigh, hhighInf⟩ := Bound.sub_upper hua hlb
  have hLU := sub_le_sub (lowest_le_highest ha) (lowest_le_highest hb)
  rw [SubFits, ← hlowInf, ← hhighInf, ← forall_ofValue_mem_iff hLU hlow hhigh,
    ← forall_mem_sub_ofValue_iff ha hb, ← eq_interval a, ← eq_interval b]

/-! ## Products -/

/-- The corner products of two intervals that are products of finite bounds. -/
def finiteCorners (l u l' u' : Bound sign width) : List ℤ :=
  [l.product l', u.product l', l.product u', u.product u'].filterMap id

/-- The lower bound of the product of two intervals is below a machine integer exactly when it is
`-oo` or some finite corner, wrapped, is below. -/
theorem rank_mul_lower_le_iff {l u l' u' : Bound sign width} {t : BitInt sign width}
    (hl : l = .minusInfinity ∨ ∃ v, l = .finite v) (hu : u = .plusInfinity ∨ ∃ v, u = .finite v)
    (hl' : l' = .minusInfinity ∨ ∃ v, l' = .finite v)
    (hu' : u' = .plusInfinity ∨ ∃ v, u' = .finite v) :
    (Bound.min₄ (l * l') (u * l') (l * u') (u * u')).rank ≤ (Bound.finite t).rank ↔
      (l = .minusInfinity ∨ l' = .minusInfinity) ∨
        ∃ c ∈ finiteCorners l u l' u', wrap (BitInt.minInt sign width) (2 ^ width) c ≤ t.toInt := by
  simp only [Bound.min₄, Bound.rank_min, min_le_iff]
  rcases hl with rfl | ⟨a, rfl⟩ <;> rcases hu with rfl | ⟨b, rfl⟩ <;>
    rcases hl' with rfl | ⟨c, rfl⟩ <;> rcases hu' with rfl | ⟨d, rfl⟩ <;>
    simp [Bound.rank, finiteCorners, Bound.product, BitInt.mul_eq_ofValue, BitInt.toInt_ofValue]

/-- The same for the upper bound. -/
theorem le_rank_mul_upper_iff {l u l' u' : Bound sign width} {t : BitInt sign width}
    (hl : l = .minusInfinity ∨ ∃ v, l = .finite v) (hu : u = .plusInfinity ∨ ∃ v, u = .finite v)
    (hl' : l' = .minusInfinity ∨ ∃ v, l' = .finite v)
    (hu' : u' = .plusInfinity ∨ ∃ v, u' = .finite v) :
    (Bound.finite t).rank ≤ (Bound.max₄ (l * l') (u * l') (l * u') (u * u')).rank ↔
      (u = .plusInfinity ∨ u' = .plusInfinity) ∨
        ∃ c ∈ finiteCorners l u l' u', t.toInt ≤ wrap (BitInt.minInt sign width) (2 ^ width) c := by
  simp only [Bound.max₄, Bound.rank_max, le_max_iff]
  rcases hl with rfl | ⟨a, rfl⟩ <;> rcases hu with rfl | ⟨b, rfl⟩ <;>
    rcases hl' with rfl | ⟨c, rfl⟩ <;> rcases hu' with rfl | ⟨d, rfl⟩ <;>
    simp [Bound.rank, finiteCorners, Bound.product, BitInt.mul_eq_ofValue, BitInt.toInt_ofValue]

/-- The products of the ends of two intervals. -/
def endCorners (a b : Ptr sign width) : List ℤ :=
  corners a.lb.lowest a.ub.highest b.lb.lowest b.ub.highest

/-- No product of two members wraps differently from another. -/
def OneTurn (a b : Ptr sign width) : Prop :=
  ∀ c ∈ endCorners a b, ∀ d ∈ endCorners a b,
    turn (BitInt.minInt sign width) (2 ^ width) c = turn (BitInt.minInt sign width) (2 ^ width) d

/-- When `apply(MUL, b)` of `a` is right: each bound of the result is infinite, or the extreme
value, or nothing wraps and a finite corner bounds the corners the infinity rules drop. -/
structure MulFits (a b : Ptr sign width) : Prop where
  lower : (a.lb = .minusInfinity ∨ b.lb = .minusInfinity) ∨
    (∃ c ∈ finiteCorners a.lb a.ub b.lb b.ub,
      wrap (BitInt.minInt sign width) (2 ^ width) c = BitInt.minInt sign width) ∨
    OneTurn a b ∧ ∀ z ∈ endCorners a b, ∃ c ∈ finiteCorners a.lb a.ub b.lb b.ub, c ≤ z
  upper : (a.ub = .plusInfinity ∨ b.ub = .plusInfinity) ∨
    (∃ c ∈ finiteCorners a.lb a.ub b.lb b.ub,
      wrap (BitInt.minInt sign width) (2 ^ width) c = BitInt.maxInt sign width) ∨
    OneTurn a b ∧ ∀ z ∈ endCorners a b, ∃ c ∈ finiteCorners a.lb a.ub b.lb b.ub, z ≤ c

/-- The finite corners are corners. -/
theorem mem_endCorners_of_mem_finiteCorners {a b : Ptr sign width} {c : ℤ}
    (hc : c ∈ finiteCorners a.lb a.ub b.lb b.ub) : c ∈ endCorners a b := by
  simp only [finiteCorners, List.mem_filterMap, id, exists_eq_right, List.mem_cons,
    List.not_mem_nil, or_false, @eq_comm _ (some c)] at hc
  simp only [endCorners, corners, List.mem_cons, List.not_mem_nil, or_false]
  rcases hc with hc | hc | hc | hc
  · exact Or.inl (Bound.eq_of_product hc).1
  · exact Or.inr (Or.inl (Bound.eq_of_product hc).2.1)
  · exact Or.inr (Or.inr (Or.inl (Bound.eq_of_product hc).2.2.1))
  · exact Or.inr (Or.inr (Or.inr (Bound.eq_of_product hc).2.2.2))

/-- `apply(MUL, b)` of `a` is right exactly when every product of members lies between wrapped
finite corners, on the sides that are not infinite. -/
theorem sound_mul_iff {a b : Ptr sign width} (ha : ∃ x, x ∈ a) (hb : ∃ y, y ∈ b) :
    Sound .mul (· * ·) a b ↔ ∀ x ∈ a, ∀ y ∈ b,
      ((a.lb = .minusInfinity ∨ b.lb = .minusInfinity) ∨
        ∃ c ∈ finiteCorners a.lb a.ub b.lb b.ub, wrap (BitInt.minInt sign width) (2 ^ width) c ≤
          wrap (BitInt.minInt sign width) (2 ^ width) (x.toInt * y.toInt)) ∧
      ((a.ub = .plusInfinity ∨ b.ub = .plusInfinity) ∨
        ∃ c ∈ finiteCorners a.lb a.ub b.lb b.ub,
          wrap (BitInt.minInt sign width) (2 ^ width) (x.toInt * y.toInt) ≤
            wrap (BitInt.minInt sign width) (2 ^ width) c) := by
  have happly : apply .mul a b = some (interval
      (Bound.min₄ (a.lb * b.lb) (a.ub * b.lb) (a.lb * b.ub) (a.ub * b.ub))
      (Bound.max₄ (a.lb * b.lb) (a.ub * b.lb) (a.lb * b.ub) (a.ub * b.ub))) := by
    simp [apply, mul, isBottom_eq_false ha, isBottom_eq_false hb, clone]
  simp only [Sound, happly, Option.some.injEq, exists_eq_left']
  rw [eq_interval a] at ha
  rw [eq_interval b] at hb
  obtain ⟨hla, hua⟩ := bounds_of_mem ha
  obtain ⟨hlb, hub⟩ := bounds_of_mem hb
  refine forall₄_congr fun x _ y _ => ?_
  rw [mem_interval_iff, rank_mul_lower_le_iff hla hua hlb hub,
    le_rank_mul_upper_iff hla hua hlb hub, BitInt.mul_eq_ofValue, BitInt.toInt_ofValue]

/-- The product of two members lies between two corners, on their turn if there is only one. -/
theorem corners_of_mem {a b : Ptr sign width} {x y : BitInt sign width} (hx : x ∈ a) (hy : y ∈ b) :
    (∃ c ∈ endCorners a b, c ≤ x.toInt * y.toInt) ∧ (∃ c ∈ endCorners a b, x.toInt * y.toInt ≤ c) ∧
      (OneTurn a b → ∀ c ∈ endCorners a b, turn (BitInt.minInt sign width) (2 ^ width) c =
        turn (BitInt.minInt sign width) (2 ^ width) (x.toInt * y.toInt)) := by
  rw [eq_interval a] at hx
  rw [eq_interval b] at hy
  obtain ⟨hx1, hx2⟩ := (mem_iff_of_nonempty ⟨x, hx⟩ x).mp hx
  obtain ⟨hy1, hy2⟩ := (mem_iff_of_nonempty ⟨y, hy⟩ y).mp hy
  obtain ⟨c, hc, hcle⟩ := exists_corner_le hx1 hx2 hy1 hy2
  obtain ⟨d, hd, hled⟩ := exists_le_corner hx1 hx2 hy1 hy2
  refine ⟨⟨c, hc, hcle⟩, ⟨d, hd, hled⟩, fun hone e he => ?_⟩
  rw [hone e he c hc]
  exact (turn_eq_of_between (BitInt.two_pow_pos width) hcle hled (hone c hc d hd)).symm

theorem sound_mul {a b : Ptr sign width} (ha : ∃ x, x ∈ a) (hb : ∃ y, y ∈ b) (h : MulFits a b) :
    Sound .mul (· * ·) a b := by
  rw [sound_mul_iff ha hb]
  intro x hx y hy
  obtain ⟨⟨z, hz, hzle⟩, ⟨z', hz', hlez'⟩, hturn⟩ := corners_of_mem hx hy
  have hm := BitInt.two_pow_pos width
  constructor
  · rcases h.lower with hfree | ⟨c, hc, hmin⟩ | ⟨hone, hbound⟩
    · exact Or.inl hfree
    · exact Or.inr ⟨c, hc, hmin.le.trans (le_wrap hm _)⟩
    · obtain ⟨c, hc, hcz⟩ := hbound z hz
      have hct := hturn hone c (mem_endCorners_of_mem_finiteCorners hc)
      exact Or.inr ⟨c, hc, (wrap_le_wrap_iff hct).mpr (hcz.trans hzle)⟩
  · rcases h.upper with hfree | ⟨c, hc, hmax⟩ | ⟨hone, hbound⟩
    · exact Or.inl hfree
    · refine Or.inr ⟨c, hc, le_trans ?_ hmax.ge⟩
      have := @wrap_lt (BitInt.minInt sign width) _ hm (x.toInt * y.toInt)
      simp only [BitInt.maxInt]
      omega
    · obtain ⟨c, hc, hzc⟩ := hbound z' hz'
      have hct := hturn hone c (mem_endCorners_of_mem_finiteCorners hc)
      exact Or.inr ⟨c, hc, (wrap_le_wrap_iff hct.symm).mpr (hlez'.trans hzc)⟩

/-- Every corner is the product of two members. -/
theorem exists_mem_of_mem_endCorners {a b : Ptr sign width} (ha : ∃ x, x ∈ a) (hb : ∃ y, y ∈ b)
    {z : ℤ} (hz : z ∈ endCorners a b) : ∃ x ∈ a, ∃ y ∈ b, x.toInt * y.toInt = z := by
  rw [eq_interval a] at ha
  rw [eq_interval b] at hb
  obtain ⟨xl, hxl, hxl'⟩ := exists_mem_toInt ha le_rfl (lowest_le_highest ha)
  obtain ⟨xu, hxu, hxu'⟩ := exists_mem_toInt ha (lowest_le_highest ha) le_rfl
  obtain ⟨yl, hyl, hyl'⟩ := exists_mem_toInt hb le_rfl (lowest_le_highest hb)
  obtain ⟨yu, hyu, hyu'⟩ := exists_mem_toInt hb (lowest_le_highest hb) le_rfl
  rw [← eq_interval] at hxl hxu hyl hyu
  simp only [endCorners, corners, List.mem_cons, List.not_mem_nil, or_false] at hz
  rcases hz with rfl | rfl | rfl | rfl
  · exact ⟨xl, hxl, yl, hyl, by rw [hxl', hyl']⟩
  · exact ⟨xu, hxu, yl, hyl, by rw [hxu', hyl']⟩
  · exact ⟨xl, hxl, yu, hyu, by rw [hxl', hyu']⟩
  · exact ⟨xu, hxu, yu, hyu, by rw [hxu', hyu']⟩

/-- Where nothing wraps, `MulFits` is necessary. -/
theorem mulFits_of_sound {a b : Ptr sign width} (ha : ∃ x, x ∈ a) (hb : ∃ y, y ∈ b)
    (hone : OneTurn a b) (h : Sound .mul (· * ·) a b) : MulFits a b := by
  rw [sound_mul_iff ha hb] at h
  constructor
  · by_cases hfree : a.lb = .minusInfinity ∨ b.lb = .minusInfinity
    · exact Or.inl hfree
    · refine Or.inr (Or.inr ⟨hone, fun z hz => ?_⟩)
      obtain ⟨x, hx, y, hy, rfl⟩ := exists_mem_of_mem_endCorners ha hb hz
      obtain ⟨c, hc, hle⟩ := (h x hx y hy).1.resolve_left hfree
      exact ⟨c, hc, (wrap_le_wrap_iff (hone c (mem_endCorners_of_mem_finiteCorners hc) _ hz)).mp hle⟩
  · by_cases hfree : a.ub = .plusInfinity ∨ b.ub = .plusInfinity
    · exact Or.inl hfree
    · refine Or.inr (Or.inr ⟨hone, fun z hz => ?_⟩)
      obtain ⟨x, hx, y, hy, rfl⟩ := exists_mem_of_mem_endCorners ha hb hz
      obtain ⟨c, hc, hle⟩ := (h x hx y hy).2.resolve_left hfree
      exact ⟨c, hc, (wrap_le_wrap_iff (hone _ hz c (mem_endCorners_of_mem_finiteCorners hc))).mp hle⟩

/-! ## When the three operations are right -/

/-- An operation that returns is right when an operand is empty. -/
theorem sound_of_empty {opcode : ArithType}
    {f : BitInt sign width → BitInt sign width → BitInt sign width} {a b : Ptr sign width}
    (happly : (apply opcode a b).isSome) (h : ¬ ((∃ x, x ∈ a) ∧ ∃ y, y ∈ b)) :
    Sound opcode f a b := by
  obtain ⟨r, hr⟩ := Option.isSome_iff_exists.mp happly
  exact ⟨r, hr, fun x hx y hy => absurd ⟨⟨x, hx⟩, ⟨y, hy⟩⟩ h⟩

/-- **Interval addition, subtraction and multiplication.** Sums and differences of the members
belong to the result exactly when an operand is empty or the range fits.  Products do if
`MulFits`, and only then where no product wraps. -/
theorem apply_sound_iff (a b : Ptr sign width) :
    (Sound .add (· + ·) a b ↔ ((∃ x, x ∈ a) ∧ (∃ y, y ∈ b) → AddFits a b)) ∧
      (Sound .sub (· - ·) a b ↔ ((∃ x, x ∈ a) ∧ (∃ y, y ∈ b) → SubFits a b)) ∧
      (((∃ x, x ∈ a) ∧ (∃ y, y ∈ b) → MulFits a b) → Sound .mul (· * ·) a b) ∧
      (OneTurn a b → Sound .mul (· * ·) a b → (∃ x, x ∈ a) ∧ (∃ y, y ∈ b) → MulFits a b) := by
  by_cases hne : (∃ x, x ∈ a) ∧ ∃ y, y ∈ b
  · obtain ⟨ha, hb⟩ := hne
    simp only [ha, hb, true_and, true_implies]
    exact ⟨sound_add_iff ha hb, sound_sub_iff ha hb, sound_mul ha hb, mulFits_of_sound ha hb⟩
  · simp only [hne, false_implies, iff_true, true_implies, implies_true, and_true]
    exact ⟨sound_of_empty rfl hne, sound_of_empty rfl hne, sound_of_empty rfl hne⟩

/-- `[0, 200] + [0, 100]` over unsigned bytes is `[0, 44]`, which misses `100 + 100`. -/
theorem not_apply_sound :
    ¬ ∀ (sign : Bool) (width : Nat) (a b : Ptr sign width), Sound .add (· + ·) a b ∧
      Sound .sub (· - ·) a b ∧ Sound .mul (· * ·) a b := by
  intro hclaim
  obtain ⟨r, hr, hmem⟩ := (hclaim false 8 (interval (.finite ⟨0⟩) (.finite ⟨200⟩))
    (interval (.finite ⟨0⟩) (.finite ⟨100⟩))).1
  obtain rfl := Option.some.inj hr
  have hsum := hmem ⟨100⟩ (by decide) ⟨100⟩ (by decide)
  revert hsum
  decide

end Interval

end Borealis
