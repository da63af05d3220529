import Borealis.Interpreter.IntervalArith

/-!
# Pairs of a signed and an unsigned interval

`DoubleInterval` of `Interpreter/Domain/Numerical/DoubleInterval.hpp`: an interval for the signed
value of a machine integer and one for its unsigned value.  The constructor normalizes a pair, so
the pairs of the model carry that they are normalized.

`splitByLess` splits each component by its own order.  A caller splits on a comparison of one
signedness only, and takes both components of the part: the one of the other signedness has been
cut at a bound the comparison says nothing about.

## Strategy

A component that `splitByLess` narrows keeps what lies below the greatest value of the other
interval in its true part, and what lies above the least one in its false part
(`mem_splitByLess_true_iff`, `mem_splitByLess_false_iff`).  When the two orders agree on `x` and
`y`, both components keep `x` in the same part.  When they disagree, `x` must be in both parts,
and `Kept` says when each component keeps it.
-/

namespace Borealis

namespace Interval

variable {sign : Bool} {width : Nat}

/-- `leq(ConstPtr other)`. -/
def leq (this other : Ptr sign width) : Bool :=
  if this.isBottom then true
  else if other.isBottom then false
  else other.lb.leq this.lb && this.ub.leq other.ub

/-- `splitByLess`: the true part and the false part. -/
def splitByLess (this other : Ptr sign width) : Ptr sign width × Ptr sign width :=
  if this.isBottom || other.isBottom then (clone this.toInterval, clone this.toInterval)
  else if leq this other then (clone this.toInterval, clone this.toInterval)
  else if this.ub.lt other.lb then (clone this.toInterval, clone this.toInterval)
  else if other.ub.lt this.lb then (clone this.toInterval, clone this.toInterval)
  else (interval this.lb other.ub, interval other.lb this.ub)

/-- The interval is narrowed by `splitByLess`: it is neither inside the other nor apart from
it. -/
def Narrows (this other : Ptr sign width) : Prop :=
  this.isBottom = false ∧ other.isBottom = false ∧ leq this other = false ∧
    this.ub.lt other.lb = false ∧ other.ub.lt this.lb = false

instance (this other : Ptr sign width) : Decidable (Narrows this other) :=
  inferInstanceAs (Decidable (_ ∧ _))

theorem clone_eq (i : Ptr sign width) : clone i.toInterval = i :=
  (eq_interval i).symm

theorem splitByLess_of_narrows {this other : Ptr sign width} (h : Narrows this other) :
    splitByLess this other = (interval this.lb other.ub, interval other.lb this.ub) := by
  obtain ⟨hthis, hother, hleq, hbelow, habove⟩ := h
  simp [splitByLess, hthis, hother, hleq, hbelow, habove]

theorem splitByLess_of_not_narrows {this other : Ptr sign width} (h : ¬ Narrows this other) :
    splitByLess this other = (this, this) := by
  unfold splitByLess
  rw [clone_eq]
  split
  · rfl
  · next hbottom =>
      split
      · rfl
      · next hleq =>
          split
          · rfl
          · next hbelow =>
              split
              · rfl
              · next habove =>
                  exfalso
                  apply h
                  simp only [Bool.or_eq_true, not_or, Bool.not_eq_true] at hbottom
                  simp only [Bool.not_eq_true] at hleq hbelow habove
                  exact ⟨hbottom.1, hbottom.2, hleq, hbelow, habove⟩

theorem mem_iff {a : Ptr sign width} {x : BitInt sign width} :
    x ∈ a ↔ a.lb.rank ≤ (Bound.finite x).rank ∧ (Bound.finite x).rank ≤ a.ub.rank := by
  rw [eq_interval a]
  exact mem_interval_iff

/-- The member of a constant interval. -/
theorem eq_asConstant {a : Ptr sign width} (hconstant : a.isConstant = true)
    {x : BitInt sign width} (hx : x ∈ a) : x = a.asConstant := by
  have hbounds : a.lb = a.ub := by simpa [isConstant] using hconstant
  obtain ⟨hlb, hub⟩ := mem_iff.mp hx
  rw [← hbounds] at hub
  rw [asConstant]
  cases h : a.lb with
  | plusInfinity => rw [h] at hlb; simp [Bound.rank] at hlb
  | minusInfinity => rw [h] at hub; simp [Bound.rank] at hub
  | finite v =>
      rw [h, Bound.rank_finite_le_finite] at hlb hub
      exact BitInt.toInt_injective (le_antisymm hub hlb)

/-- The true part keeps what lies below the other interval's end. -/
theorem mem_splitByLess_true_iff {a b : Ptr sign width} {x : BitInt sign width} (hx : x ∈ a) :
    x ∈ (splitByLess a b).1 ↔ (Narrows a b → (Bound.finite x).rank ≤ b.ub.rank) := by
  by_cases h : Narrows a b
  · rw [splitByLess_of_narrows h, mem_interval_iff]
    exact ⟨fun hmem _ => hmem.2, fun hle => ⟨(mem_iff.mp hx).1, hle h⟩⟩
  · rw [splitByLess_of_not_narrows h]
    exact ⟨fun _ hnarrows => absurd hnarrows h, fun _ => hx⟩

/-- The false part keeps what lies above the other interval's start. -/
theorem mem_splitByLess_false_iff {a b : Ptr sign width} {x : BitInt sign width} (hx : x ∈ a) :
    x ∈ (splitByLess a b).2 ↔ (Narrows a b → b.lb.rank ≤ (Bound.finite x).rank) := by
  by_cases h : Narrows a b
  · rw [splitByLess_of_narrows h, mem_interval_iff]
    exact ⟨fun hmem _ => hmem.1, fun hle => ⟨hle h, (mem_iff.mp hx).2⟩⟩
  · rw [splitByLess_of_not_narrows h]
    exact ⟨fun _ hnarrows => absurd hnarrows h, fun _ => hx⟩

/-- **One interval is split soundly by its own order.** -/
theorem splitByLess_sound {a b : Ptr sign width} {x y : BitInt sign width} (hx : x ∈ a)
    (hy : y ∈ b) :
    (x.toInt < y.toInt → x ∈ (splitByLess a b).1) ∧
      (y.toInt ≤ x.toInt → x ∈ (splitByLess a b).2) := by
  rw [mem_splitByLess_true_iff hx, mem_splitByLess_false_iff hx]
  constructor
  · intro hlt _
    exact (Bound.rank_finite_le_finite.mpr hlt.le).trans (mem_iff.mp hy).2
  · intro hle _
    exact (mem_iff.mp hy).1.trans (Bound.rank_finite_le_finite.mpr hle)

theorem mem_of_isTop {a : Ptr sign width} (htop : a.isTop = true) (x : BitInt sign width) :
    x ∈ a := by
  have hflags := a.flags
  have hbounds : a.lb = .minusInfinity ∧ a.ub = .plusInfinity := by
    rw [hflags] at htop
    simpa [ofBounds] using htop
  rw [mem_iff, hbounds.1, hbounds.2]
  exact ⟨bot_le, Bound.rank_le_plusInfinity _⟩

end Interval

/-- `normalize`: a top component makes both top, a bottom one makes both bottom. -/
def DoubleInterval.normalize {width : Nat} (first : Interval.Ptr true width)
    (second : Interval.Ptr false width) : Interval.Ptr true width × Interval.Ptr false width :=
  if first.isTop || second.isTop then (Interval.top, Interval.top)
  else if first.isBottom || second.isBottom then (Interval.bottom, Interval.bottom)
  else (first, second)

/-- `DoubleInterval<BitInt<true>, BitInt<false>>`. -/
structure DoubleInterval (width : Nat) where
  first : Interval.Ptr true width
  second : Interval.Ptr false width
  normalized : DoubleInterval.normalize first second = (first, second)

namespace DoubleInterval

variable {width : Nat}

theorem normalize_normalize (first : Interval.Ptr true width)
    (second : Interval.Ptr false width) :
    normalize (normalize first second).1 (normalize first second).2 = normalize first second := by
  by_cases htop : (first.isTop || second.isTop) = true
  · simp only [normalize, htop, if_true]
    rfl
  · by_cases hbottom : (first.isBottom || second.isBottom) = true
    · have hnormal : normalize first second = (Interval.bottom, Interval.bottom) := by
        simp [normalize, htop, hbottom]
      rw [hnormal]
      unfold normalize
      split
      · next h =>
          simp [Interval.bottom, Interval.interval, Interval.ofBounds, Bound.ofInt] at h
      · split <;> rfl
    · have hnormal : normalize first second = (first, second) := by
        simp [normalize, htop, hbottom]
      rw [hnormal, hnormal]

/-- `interval`, the cache: the pair is normalized when it is built. -/
def interval (first : Interval.Ptr true width) (second : Interval.Ptr false width) :
    DoubleInterval width :=
  ⟨(normalize first second).1, (normalize first second).2, normalize_normalize first second⟩

/-- `isBottom`. -/
def isBottom (a : DoubleInterval width) : Bool :=
  a.first.isBottom && a.second.isBottom

/-- `splitByLess`: the true part and the false part. -/
def splitByLess (this other : DoubleInterval width) :
    DoubleInterval width × DoubleInterval width :=
  if this.isBottom || other.isBottom then (this, this)
  else
    let fsplit := Interval.splitByLess this.first other.first
    let ssplit := Interval.splitByLess this.second other.second
    (interval fsplit.1 ssplit.1, interval fsplit.2 ssplit.2)

/-- The machine integers of a pair: the signed value is in the first component, the unsigned
value in the second. -/
instance : Membership (BitVec width) (DoubleInterval width) :=
  ⟨fun a x => (⟨x⟩ : BitInt true width) ∈ a.first ∧ (⟨x⟩ : BitInt false width) ∈ a.second⟩

instance (x : BitVec width) (a : DoubleInterval width) : Decidable (x ∈ a) :=
  inferInstanceAs (Decidable (_ ∧ _))

theorem mem_def {a : DoubleInterval width} {x : BitVec width} :
    x ∈ a ↔ (⟨x⟩ : BitInt true width) ∈ a.first ∧ (⟨x⟩ : BitInt false width) ∈ a.second :=
  Iff.rfl

/-- The unsigned bottom contains nothing. -/
theorem not_mem_bottom (hwidth : 0 < width) (x : BitInt false width) :
    x ∉ (Interval.bottom : Interval.Ptr false width) := by
  intro hx
  have hle := (Interval.mem_interval_iff.mp hx).1.trans (Interval.mem_interval_iff.mp hx).2
  rw [Bound.ofInt, Bound.ofInt, Bound.rank_finite_le_finite] at hle
  have hone : 1 % 2 ^ width = 1 :=
    Nat.mod_eq_of_lt (Nat.one_lt_two_pow (Nat.pos_iff_ne_zero.mp hwidth))
  simp [BitInt.ofInt, BitInt.toInt, hone] at hle

/-- What a normalized pair contains: normalizing loses nothing. -/
theorem mem_interval_iff (hwidth : 0 < width) {first : Interval.Ptr true width}
    {second : Interval.Ptr false width} {x : BitVec width} :
    x ∈ interval first second ↔ first.isTop = true ∨ second.isTop = true ∨
      (⟨x⟩ : BitInt true width) ∈ first ∧ (⟨x⟩ : BitInt false width) ∈ second := by
  rw [mem_def]
  unfold interval normalize
  dsimp only
  split
  · next htop =>
      rw [Bool.or_eq_true] at htop
      constructor
      · intro _
        exact htop.elim Or.inl fun h => Or.inr (Or.inl h)
      · intro _
        exact ⟨Interval.mem_of_isTop rfl _, Interval.mem_of_isTop rfl _⟩
  · next htop =>
      simp only [Bool.or_eq_true, not_or] at htop
      split
      · next hbottom =>
          constructor
          · intro hmem
            exact absurd hmem.2 (not_mem_bottom hwidth _)
          · rintro (h | h | ⟨hfirst, hsecond⟩)
            · exact absurd h htop.1
            · exact absurd h htop.2
            · rw [Bool.or_eq_true] at hbottom
              rcases hbottom with h | h
              · exact absurd hfirst.1 (by rw [h]; exact Bool.true_eq_false_eq_False)
              · exact absurd hsecond.1 (by rw [h]; exact Bool.true_eq_false_eq_False)
      · constructor
        · intro hmem
          exact Or.inr (Or.inr hmem)
        · rintro (h | h | hmem)
          · exact absurd h htop.1
          · exact absurd h htop.2
          · exact hmem

/-! ## When the split is sound -/

/-- Both parts of a split hold the machine integers they should, for either order. -/
def SplitSound (a b : DoubleInterval width) : Prop :=
  ∀ x ∈ a, ∀ y ∈ b,
    (if x.slt y then x ∈ (splitByLess a b).1 else x ∈ (splitByLess a b).2) ∧
      (if x.ult y then x ∈ (splitByLess a b).1 else x ∈ (splitByLess a b).2)

/-- The true part of a component is all of its type. -/
def TrueTop {sign : Bool} (a b : Interval.Ptr sign width) : Prop :=
  if Interval.Narrows a b then a.lb = .minusInfinity ∧ b.ub = .plusInfinity else a.isTop = true

/-- The false part of a component is all of its type. -/
def FalseTop {sign : Bool} (a b : Interval.Ptr sign width) : Prop :=
  if Interval.Narrows a b then b.lb = .minusInfinity ∧ a.ub = .plusInfinity else a.isTop = true

/-- The true part keeps `x`: one of its components is top, or `x` is below the end of `b` in each
component that is narrowed. -/
def KeptTrue (a b : DoubleInterval width) (x : BitVec width) : Prop :=
  TrueTop a.first b.first ∨ TrueTop a.second b.second ∨
    (Interval.Narrows a.first b.first →
      (Bound.finite (⟨x⟩ : BitInt true width)).rank ≤ b.first.ub.rank) ∧
    (Interval.Narrows a.second b.second →
      (Bound.finite (⟨x⟩ : BitInt false width)).rank ≤ b.second.ub.rank)

/-- The false part keeps `x`: one of its components is top, or `x` is above the start of `b` in
each component that is narrowed. -/
def KeptFalse (a b : DoubleInterval width) (x : BitVec width) : Prop :=
  FalseTop a.first b.first ∨ FalseTop a.second b.second ∨
    (Interval.Narrows a.first b.first →
      b.first.lb.rank ≤ (Bound.finite (⟨x⟩ : BitInt true width)).rank) ∧
    (Interval.Narrows a.second b.second →
      b.second.lb.rank ≤ (Bound.finite (⟨x⟩ : BitInt false width)).rank)

theorem isTop_interval_iff {sign : Bool} {lb ub : Bound sign width} :
    (Interval.interval lb ub).isTop = true ↔ lb = .minusInfinity ∧ ub = .plusInfinity := by
  simp [Interval.interval, Interval.ofBounds]

theorem isTop_splitByLess_true_iff {sign : Bool} {a b : Interval.Ptr sign width} :
    (Interval.splitByLess a b).1.isTop = true ↔ TrueTop a b := by
  unfold TrueTop
  split
  · next h => rw [Interval.splitByLess_of_narrows h, isTop_interval_iff]
  · next h => rw [Interval.splitByLess_of_not_narrows h]

theorem isTop_splitByLess_false_iff {sign : Bool} {a b : Interval.Ptr sign width} :
    (Interval.splitByLess a b).2.isTop = true ↔ FalseTop a b := by
  unfold FalseTop
  split
  · next h => rw [Interval.splitByLess_of_narrows h, isTop_interval_iff]
  · next h => rw [Interval.splitByLess_of_not_narrows h]

theorem splitByLess_of_mem {a b : DoubleInterval width} {x y : BitVec width} (hx : x ∈ a)
    (hy : y ∈ b) :
    splitByLess a b =
      (interval (Interval.splitByLess a.first b.first).1
          (Interval.splitByLess a.second b.second).1,
        interval (Interval.splitByLess a.first b.first).2
          (Interval.splitByLess a.second b.second).2) := by
  have ha : a.isBottom = false := by rw [isBottom, hx.1.1, Bool.false_and]
  have hb : b.isBottom = false := by rw [isBottom, hy.1.1, Bool.false_and]
  simp [splitByLess, ha, hb]

theorem mem_true_iff (hwidth : 0 < width) {a b : DoubleInterval width} {x y : BitVec width}
    (hx : x ∈ a) (hy : y ∈ b) : x ∈ (splitByLess a b).1 ↔ KeptTrue a b x := by
  rw [splitByLess_of_mem hx hy, mem_interval_iff hwidth, isTop_splitByLess_true_iff,
    isTop_splitByLess_true_iff, Interval.mem_splitByLess_true_iff hx.1,
    Interval.mem_splitByLess_true_iff hx.2]
  rfl

theorem mem_false_iff (hwidth : 0 < width) {a b : DoubleInterval width} {x y : BitVec width}
    (hx : x ∈ a) (hy : y ∈ b) : x ∈ (splitByLess a b).2 ↔ KeptFalse a b x := by
  rw [splitByLess_of_mem hx hy, mem_interval_iff hwidth, isTop_splitByLess_false_iff,
    isTop_splitByLess_false_iff, Interval.mem_splitByLess_false_iff hx.1,
    Interval.mem_splitByLess_false_iff hx.2]
  rfl

theorem slt_iff_toInt {x y : BitVec width} :
    x.slt y = true ↔ (⟨x⟩ : BitInt true width).toInt < (⟨y⟩ : BitInt true width).toInt := by
  simp [BitVec.slt, BitInt.toInt]

theorem ult_iff_toInt {x y : BitVec width} :
    x.ult y = true ↔ (⟨x⟩ : BitInt false width).toInt < (⟨y⟩ : BitInt false width).toInt := by
  simp [BitVec.ult, BitInt.toInt]

/-- Where the two orders agree, each component keeps the integer in the part of that order. -/
theorem mem_split_of_agree (hwidth : 0 < width) {a b : DoubleInterval width} {x y : BitVec width}
    (hx : x ∈ a) (hy : y ∈ b) (hagree : x.slt y = x.ult y) :
    if x.slt y then x ∈ (splitByLess a b).1 else x ∈ (splitByLess a b).2 := by
  obtain ⟨htrue, hfalse⟩ := Interval.splitByLess_sound hx.1 hy.1
  obtain ⟨htrue', hfalse'⟩ := Interval.splitByLess_sound hx.2 hy.2
  rw [splitByLess_of_mem hx hy]
  split
  · next hlt =>
      rw [mem_interval_iff hwidth]
      have hult : x.ult y = true := hagree ▸ hlt
      exact Or.inr (Or.inr ⟨htrue (slt_iff_toInt.mp hlt), htrue' (ult_iff_toInt.mp hult)⟩)
  · next hlt =>
      rw [mem_interval_iff hwidth]
      have hult : ¬ x.ult y = true := hagree ▸ hlt
      rw [slt_iff_toInt, not_lt] at hlt
      rw [ult_iff_toInt, not_lt] at hult
      exact Or.inr (Or.inr ⟨hfalse hlt, hfalse' hult⟩)

/-- **`splitByLess` is sound for both orders exactly where both parts keep every integer on which
the orders disagree.** -/
theorem splitByLess_sound_iff (hwidth : 0 < width) (a b : DoubleInterval width) :
    SplitSound a b ↔
      ∀ x ∈ a, ∀ y ∈ b, x.slt y ≠ x.ult y → KeptTrue a b x ∧ KeptFalse a b x := by
  constructor
  · intro hsound x hx y hy hne
    obtain ⟨hsigned, hunsigned⟩ := hsound x hx y hy
    rw [← mem_true_iff hwidth hx hy, ← mem_false_iff hwidth hx hy]
    -- one order puts `x` into the true part and the other into the false part
    cases hs : x.slt y with
    | true =>
        have hu : x.ult y = false := by
          rw [hs] at hne
          simpa using hne.symm
        rw [hs, if_pos rfl] at hsigned
        rw [hu] at hunsigned
        exact ⟨hsigned, by simpa using hunsigned⟩
    | false =>
        have hu : x.ult y = true := by
          rw [hs] at hne
          simpa using hne.symm
        rw [hs] at hsigned
        rw [hu, if_pos rfl] at hunsigned
        exact ⟨hunsigned, by simpa using hsigned⟩
  · intro hkept x hx y hy
    by_cases hagree : x.slt y = x.ult y
    · have := mem_split_of_agree hwidth hx hy hagree
      exact ⟨this, hagree ▸ this⟩
    · obtain ⟨htrue, hfalse⟩ := hkept x hx y hy hagree
      rw [← mem_true_iff hwidth hx hy] at htrue
      rw [← mem_false_iff hwidth hx hy] at hfalse
      constructor
      · split
        · exact htrue
        · exact hfalse
      · split
        · exact htrue
        · exact hfalse

/-! ### Pairs of bytes -/

/-- The bytes with signed value in `[-1, 0]` and unsigned value in `[0, 255]`. -/
def aroundZero : DoubleInterval 8 :=
  interval (Interval.interval (.finite ⟨255⟩) (.finite ⟨0⟩))
    (Interval.interval (.finite ⟨0⟩) (.finite ⟨255⟩))

/-- The bytes up to ten, for both signednesses. -/
def upToTen : DoubleInterval 8 :=
  interval (Interval.interval (.finite ⟨0⟩) (.finite ⟨10⟩))
    (Interval.interval (.finite ⟨0⟩) (.finite ⟨10⟩))

/-- A pair split by itself is not narrowed, although the orders disagree on `-1` and `0`. -/
theorem splitByLess_sound_iff_self : SplitSound aroundZero aroundZero := by
  rw [splitByLess_sound_iff (by decide)]
  intro x _ y _ _
  have hfirst : ¬ Interval.Narrows aroundZero.first aroundZero.first := by decide
  have hsecond : ¬ Interval.Narrows aroundZero.second aroundZero.second := by decide
  constructor
  · exact Or.inr (Or.inr ⟨fun h => absurd h hfirst, fun h => absurd h hsecond⟩)
  · exact Or.inr (Or.inr ⟨fun h => absurd h hfirst, fun h => absurd h hsecond⟩)

/-- `-1` is less than five, but its unsigned value is above ten and the true part drops it. -/
theorem splitByLess_drops_value :
    ¬ ∀ (width : Nat) (a b : DoubleInterval width), 0 < width → SplitSound a b := by
  intro hclaim
  have hrun := (hclaim 8 aroundZero upToTen (by decide) 255 (by decide) 5 (by decide)).1
  revert hrun
  decide

end DoubleInterval

end Borealis
