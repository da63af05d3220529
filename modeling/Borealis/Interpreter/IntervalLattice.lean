import Borealis.Interpreter.DoubleInterval

/-!
# Joins, widenings and splits of intervals

The remaining operations of `Interval` and `DoubleInterval`: `join`, `widen`, `splitByEq` and
`intersects`.  The source returns early when both arguments are the same pointer; the answer is
the one given here.

`widen` keeps an end of its first argument, or opens it to infinity when the second argument
reaches beyond it.  So an interval widened any number of times is the first one with some of its
ends opened.
-/

namespace Borealis

namespace Interval

variable {sign : Bool} {width : Nat}

/-- `join`. -/
def join (this other : Ptr sign width) : Ptr sign width :=
  if this.isBottom then other
  else if other.isBottom then this
  else interval (this.lb.min other.lb) (this.ub.max other.ub)

/-- `widen`. -/
def widen (this other : Ptr sign width) : Ptr sign width :=
  if this.isBottom then clone other.toInterval
  else if other.isBottom then this
  else interval (if other.lb.lt this.lb then .minusInfinity else this.lb)
    (if other.ub.gt this.ub then .plusInfinity else this.ub)

/-- `equals`. -/
def equals (this other : Ptr sign width) : Bool :=
  if this.isBottom then other.isBottom
  else if other.isBottom then false
  else this.lb == other.lb && this.ub == other.ub

/-- `splitByEq`: the true part and the false part. -/
def splitByEq (this other : Ptr sign width) : Ptr sign width × Ptr sign width :=
  if this.isBottom || other.isBottom then (clone this.toInterval, clone this.toInterval)
  else if other.isConstant then (clone other.toInterval, clone this.toInterval)
  else (clone this.toInterval, clone this.toInterval)

/-- `intersects`. -/
def intersects (this other : Ptr sign width) : Bool :=
  (this.lb.leq other.lb && other.lb.leq this.ub) ||
    (other.lb.leq this.lb && this.lb.leq other.ub)

theorem ext_bounds {a b : Ptr sign width} (hlb : a.lb = b.lb) (hub : a.ub = b.ub) : a = b := by
  rw [eq_interval a, eq_interval b, hlb, hub]

/-- The shortcut of `join` for the same pointer. -/
theorem join_self (a : Ptr sign width) : join a a = a := by
  have hmin : a.lb.min a.lb = a.lb := by unfold Bound.min; split <;> rfl
  have hmax : a.ub.max a.ub = a.ub := by unfold Bound.max; split <;> rfl
  unfold join
  split
  · rfl
  · rw [hmin, hmax, ← eq_interval]

theorem isBottom_iff {a : Ptr sign width} : a.isBottom = true ↔ a.ub.rank < a.lb.rank := by
  rw [a.flags]
  simp [ofBounds, Bound.gt, ← Bound.leq_iff, ← not_le]

theorem isBottom_eq_false_iff {a : Ptr sign width} :
    a.isBottom = false ↔ a.lb.rank ≤ a.ub.rank := by
  rw [← Bool.not_eq_true, isBottom_iff, not_lt]

theorem isTop_iff {a : Ptr sign width} :
    a.isTop = true ↔ a.lb = .minusInfinity ∧ a.ub = .plusInfinity := by
  rw [a.flags]
  simp [ofBounds]

theorem not_isBottom_of_isTop {a : Ptr sign width} (h : a.isTop = true) : a.isBottom = false := by
  obtain ⟨hlb, hub⟩ := isTop_iff.mp h
  rw [isBottom_eq_false_iff, hlb, hub]
  exact bot_le

theorem leq_iff {a b : Ptr sign width} (ha : a.isBottom = false) (hb : b.isBottom = false) :
    leq a b = true ↔ b.lb.rank ≤ a.lb.rank ∧ a.ub.rank ≤ b.ub.rank := by
  simp [leq, ha, hb, Bound.leq_iff]

theorem isBottom_of_leq {a b : Ptr sign width} (h : leq a b = true) (ha : a.isBottom = false) :
    b.isBottom = false := by
  by_contra hb
  simp [leq, ha, hb] at h

theorem isTop_of_leq {a b : Ptr sign width} (h : leq a b = true) (ha : a.isTop = true) :
    b.isTop = true := by
  have hbottom := not_isBottom_of_isTop ha
  obtain ⟨hlb, hub⟩ := isTop_iff.mp ha
  have hle := (leq_iff hbottom (isBottom_of_leq h hbottom)).mp h
  rw [hlb, hub] at hle
  rw [isTop_iff]
  constructor
  · cases hb : b.lb <;> simp_all [Bound.rank]
  · cases hb : b.ub <;> simp_all [Bound.rank]

theorem leq_refl (a : Ptr sign width) : leq a a = true := by
  unfold leq
  split
  · rfl
  · simp [Bound.leq_iff]

theorem leq_trans {a b c : Ptr sign width} (hab : leq a b = true) (hbc : leq b c = true) :
    leq a c = true := by
  cases ha : a.isBottom with
  | true => simp [leq, ha]
  | false =>
      have hb := isBottom_of_leq hab ha
      have hc := isBottom_of_leq hbc hb
      rw [leq_iff ha hb] at hab
      rw [leq_iff hb hc] at hbc
      exact (leq_iff ha hc).mpr ⟨hbc.1.trans hab.1, hab.2.trans hbc.2⟩

theorem mem_of_leq {a b : Ptr sign width} (h : leq a b = true) {x : BitInt sign width}
    (hx : x ∈ a) : x ∈ b := by
  have ha : a.isBottom = false := hx.1
  have hb := isBottom_of_leq h ha
  rw [leq_iff ha hb] at h
  rw [mem_iff] at hx ⊢
  exact ⟨h.1.trans hx.1, hx.2.trans h.2⟩

/-! ## Join -/

section

variable {a b : Ptr sign width} (ha : a.isBottom = false) (hb : b.isBottom = false)
include ha hb

theorem join_lb : (join a b).lb.rank = min a.lb.rank b.lb.rank := by
  simp [join, ha, hb, interval, Bound.rank_min]

theorem join_ub : (join a b).ub.rank = max a.ub.rank b.ub.rank := by
  simp [join, ha, hb, interval, Bound.rank_max]

theorem join_isBottom : (join a b).isBottom = false := by
  have hle := isBottom_eq_false_iff.mp ha
  rw [isBottom_eq_false_iff, join_lb ha hb, join_ub ha hb]
  exact (min_le_left _ _).trans (hle.trans (le_max_left _ _))

omit ha hb in
/-- A join has the members of both arguments. -/
theorem mem_join {x : BitInt sign width} (hx : x ∈ a ∨ x ∈ b) : x ∈ join a b := by
  cases ha : a.isBottom with
  | true =>
      have hxb : x ∈ b := hx.resolve_left fun hxa => by simp [hxa.1] at ha
      simpa [join, ha, clone_eq] using hxb
  | false =>
      cases hb : b.isBottom with
      | true =>
          have hxa : x ∈ a := hx.resolve_right fun hxb => by simp [hxb.1] at hb
          simpa [join, ha, hb] using hxa
      | false =>
          rw [mem_iff, join_lb ha hb, join_ub ha hb]
          rcases hx with hx | hx
          · obtain ⟨hlb, hub⟩ := mem_iff.mp hx
            exact ⟨(min_le_left _ _).trans hlb, hub.trans (le_max_left _ _)⟩
          · obtain ⟨hlb, hub⟩ := mem_iff.mp hx
            exact ⟨(min_le_right _ _).trans hlb, hub.trans (le_max_right _ _)⟩

/-! ## Widening -/

theorem widen_lb :
    (widen a b).lb = if b.lb.rank < a.lb.rank then .minusInfinity else a.lb := by
  simp [widen, ha, hb, interval, Bound.lt, ← Bound.geq_iff, ← not_le]

theorem widen_ub :
    (widen a b).ub = if a.ub.rank < b.ub.rank then .plusInfinity else a.ub := by
  simp [widen, ha, hb, interval, Bound.gt, ← Bound.leq_iff, ← not_le]

theorem rank_widen_lb_le :
    (widen a b).lb.rank ≤ a.lb.rank ∧ (widen a b).lb.rank ≤ b.lb.rank := by
  rw [widen_lb ha hb]
  split
  · exact ⟨bot_le, bot_le⟩
  · next h => exact ⟨le_rfl, not_lt.mp h⟩

theorem le_rank_widen_ub :
    a.ub.rank ≤ (widen a b).ub.rank ∧ b.ub.rank ≤ (widen a b).ub.rank := by
  rw [widen_ub ha hb]
  split
  · exact ⟨Bound.rank_le_plusInfinity _, Bound.rank_le_plusInfinity _⟩
  · next h => exact ⟨le_rfl, not_lt.mp h⟩

theorem widen_isBottom : (widen a b).isBottom = false := by
  rw [isBottom_eq_false_iff]
  exact (rank_widen_lb_le ha hb).1.trans
    ((isBottom_eq_false_iff.mp ha).trans (le_rank_widen_ub ha hb).1)

theorem leq_widen : leq a (widen a b) = true ∧ leq b (widen a b) = true := by
  have hwiden := widen_isBottom ha hb
  obtain ⟨hlba, hlbb⟩ := rank_widen_lb_le ha hb
  obtain ⟨huba, hubb⟩ := le_rank_widen_ub ha hb
  exact ⟨(leq_iff ha hwiden).mpr ⟨hlba, huba⟩, (leq_iff hb hwiden).mpr ⟨hlbb, hubb⟩⟩

theorem leq_join : leq a (join a b) = true ∧ leq b (join a b) = true := by
  have hjoin := join_isBottom ha hb
  rw [leq_iff ha hjoin, leq_iff hb hjoin, join_lb ha hb, join_ub ha hb]
  exact ⟨⟨min_le_left _ _, le_max_left _ _⟩, ⟨min_le_right _ _, le_max_right _ _⟩⟩

end

end Interval

namespace DoubleInterval

variable {width : Nat}

/-- `isTop`. -/
def isTop (a : DoubleInterval width) : Bool :=
  a.first.isTop && a.second.isTop

/-- `isConstant`. -/
def isConstant (a : DoubleInterval width) : Bool :=
  a.first.isConstant && a.second.isConstant

/-- `top`. -/
def top : DoubleInterval width := interval Interval.top Interval.top

/-- `bottom`. -/
def bottom : DoubleInterval width := interval Interval.bottom Interval.bottom

/-- `leq`. -/
def leq (this other : DoubleInterval width) : Bool :=
  if this.isBottom then true
  else if other.isBottom then false
  else Interval.leq this.first other.first && Interval.leq this.second other.second

/-- `join`. -/
def join (this other : DoubleInterval width) : DoubleInterval width :=
  if this.isBottom then other
  else if other.isBottom then this
  else interval (Interval.join this.first other.first) (Interval.join this.second other.second)

/-- `widen`. -/
def widen (this other : DoubleInterval width) : DoubleInterval width :=
  if this.isBottom then other
  else if other.isBottom then this
  else interval (Interval.widen this.first other.first) (Interval.widen this.second other.second)

/-- `equals`. -/
def equals (this other : DoubleInterval width) : Bool :=
  if this.isBottom then other.isBottom
  else if other.isBottom then false
  else Interval.equals this.first other.first && Interval.equals this.second other.second

/-- `splitByEq`: the true part and the false part. -/
def splitByEq (this other : DoubleInterval width) :
    DoubleInterval width × DoubleInterval width :=
  if this.isBottom || other.isBottom then (this, this)
  else
    let fsplit := Interval.splitByEq this.first other.first
    let ssplit := Interval.splitByEq this.second other.second
    (interval fsplit.1 ssplit.1, interval fsplit.2 ssplit.2)

/-- `intersects`. -/
def intersects (this other : DoubleInterval width) : Bool :=
  Interval.intersects this.first other.first || Interval.intersects this.second other.second

theorem ext_components {a b : DoubleInterval width} (hfirst : a.first = b.first)
    (hsecond : a.second = b.second) : a = b := by
  obtain ⟨first, second, hnormal⟩ := a
  obtain ⟨first', second', hnormal'⟩ := b
  obtain rfl : first = first' := hfirst
  obtain rfl : second = second' := hsecond
  rfl

/-- Bottom is recognised from its bounds, `1` and `0`; integers of one bit, where these are `-1`
and `0` for the signed reading, are Booleans. -/
theorem isBottom_bottom (hwidth : 1 < width) (sign : Bool) :
    (Interval.bottom : Interval.Ptr sign width).isBottom = true := by
  have hpow : 4 ≤ 2 ^ width := Nat.pow_le_pow_right two_pos hwidth
  have hone : 1 % 2 ^ width = 1 := Nat.mod_eq_of_lt (by omega)
  rw [Interval.isBottom_iff]
  simp only [Interval.bottom, Interval.interval, Interval.ofBounds, Bound.ofInt, Bound.rank]
  have hlt : (BitInt.ofInt 0 : BitInt sign width).toInt <
      (BitInt.ofInt 1 : BitInt sign width).toInt := by
    cases sign
    · simp [BitInt.ofInt, BitInt.toInt, hone]
    · simp only [BitInt.ofInt, BitInt.toInt, if_true, BitVec.toInt_eq_toNat_cond,
        BitVec.toNat_ofNat]
      norm_num [hone]
      omega
  exact_mod_cast hlt

/-- A normalized pair is bottom when one of its components is. -/
theorem isBottom_components (hwidth : 1 < width) (a : DoubleInterval width) :
    a.first.isBottom = a.isBottom ∧ a.second.isBottom = a.isBottom := by
  have hnormal := a.normalized
  unfold normalize at hnormal
  split at hnormal
  · obtain ⟨hfirst, hsecond⟩ := Prod.mk.inj hnormal
    simp only [isBottom, ← hfirst, ← hsecond]
    exact ⟨rfl, rfl⟩
  · split at hnormal
    · obtain ⟨hfirst, hsecond⟩ := Prod.mk.inj hnormal
      simp only [isBottom, ← hfirst, ← hsecond, isBottom_bottom hwidth]
      exact ⟨rfl, rfl⟩
    · next h =>
        rw [Bool.or_eq_true, not_or] at h
        simp [isBottom, h.1, h.2]

theorem bottom_isBottom (hwidth : 1 < width) :
    (bottom : DoubleInterval width).isBottom = true := by
  have hfirst : (bottom : DoubleInterval width).first = Interval.bottom := by
    unfold bottom interval normalize
    split
    · next h =>
        exact absurd h (by
          simp [Interval.bottom, Interval.interval, Interval.ofBounds, Bound.ofInt])
    · split <;> rfl
  rw [← (isBottom_components hwidth _).1, hfirst]
  exact isBottom_bottom hwidth true

theorem bottom_widen (hwidth : 1 < width) (a : DoubleInterval width) : bottom.widen a = a := by
  simp [widen, bottom_isBottom hwidth]

theorem bottom_join (hwidth : 1 < width) (a : DoubleInterval width) : bottom.join a = a := by
  simp [join, bottom_isBottom hwidth]

theorem components_of_not_isBottom (hwidth : 1 < width) {a : DoubleInterval width}
    (h : a.isBottom = false) :
    a.first.isBottom = false ∧ a.second.isBottom = false := by
  obtain ⟨hfirst, hsecond⟩ := isBottom_components hwidth a
  exact ⟨hfirst.trans h, hsecond.trans h⟩

/-- A pair of intervals that are not bottom contains them, each in its component. -/
theorem interval_spec {first : Interval.Ptr true width} {second : Interval.Ptr false width}
    (hfirst : first.isBottom = false) (hsecond : second.isBottom = false) :
    (interval first second).isBottom = false ∧
      Interval.leq first (interval first second).first = true ∧
      Interval.leq second (interval first second).second = true := by
  unfold interval normalize isBottom
  dsimp only
  split
  · refine ⟨rfl, ?_, ?_⟩
    · exact (Interval.leq_iff hfirst rfl).mpr ⟨bot_le, Bound.rank_le_plusInfinity _⟩
    · exact (Interval.leq_iff hsecond rfl).mpr ⟨bot_le, Bound.rank_le_plusInfinity _⟩
  · split
    · next h => simp [hfirst, hsecond] at h
    · exact ⟨by simp [hfirst], Interval.leq_refl _, Interval.leq_refl _⟩

theorem leq_iff {a b : DoubleInterval width} (ha : a.isBottom = false) (hb : b.isBottom = false) :
    leq a b = true ↔
      Interval.leq a.first b.first = true ∧ Interval.leq a.second b.second = true := by
  simp [leq, ha, hb]

theorem interval_components (a : DoubleInterval width) : interval a.first a.second = a :=
  ext_components (congrArg Prod.fst a.normalized) (congrArg Prod.snd a.normalized)

theorem join_self (a : DoubleInterval width) : join a a = a := by
  unfold join
  rw [Interval.join_self, Interval.join_self, interval_components]
  simp

theorem leq_of_isBottom {a : DoubleInterval width} (ha : a.isBottom = true)
    (b : DoubleInterval width) : leq a b = true := by
  simp [leq, ha]

theorem isBottom_of_leq {a b : DoubleInterval width} (h : leq a b = true)
    (ha : a.isBottom = false) : b.isBottom = false := by
  by_contra hb
  simp [leq, ha, hb] at h

theorem leq_refl (a : DoubleInterval width) : leq a a = true := by
  unfold leq
  split
  · rfl
  · simp [Interval.leq_refl]

theorem leq_trans {a b c : DoubleInterval width} (hab : leq a b = true) (hbc : leq b c = true) :
    leq a c = true := by
  cases ha : a.isBottom with
  | true => exact leq_of_isBottom ha c
  | false =>
      have hb := isBottom_of_leq hab ha
      have hc := isBottom_of_leq hbc hb
      simp only [leq, ha, hb, hc, Bool.false_eq_true, if_false, Bool.and_eq_true] at hab hbc ⊢
      exact ⟨Interval.leq_trans hab.1 hbc.1, Interval.leq_trans hab.2 hbc.2⟩

/-- `widen` and `join` are above both arguments. -/
theorem leq_interval_of_leq {a : DoubleInterval width}
    {first : Interval.Ptr true width} {second : Interval.Ptr false width}
    (ha : a.isBottom = false) (hfirst : Interval.leq a.first first = true)
    (hsecond : Interval.leq a.second second = true) (hfirst' : first.isBottom = false)
    (hsecond' : second.isBottom = false) : leq a (interval first second) = true := by
  obtain ⟨hbottom, hleqFirst, hleqSecond⟩ := interval_spec hfirst' hsecond'
  exact (leq_iff ha hbottom).mpr
    ⟨Interval.leq_trans hfirst hleqFirst, Interval.leq_trans hsecond hleqSecond⟩

theorem leq_widen (hwidth : 1 < width) (a b : DoubleInterval width) :
    leq a (widen a b) = true ∧ leq b (widen a b) = true := by
  unfold widen
  split
  · next ha => exact ⟨leq_of_isBottom ha b, leq_refl b⟩
  · next ha =>
      split
      · next hb => exact ⟨leq_refl a, leq_of_isBottom hb a⟩
      · next hb =>
          rw [Bool.not_eq_true] at ha hb
          obtain ⟨hafirst, hasecond⟩ := components_of_not_isBottom hwidth ha
          obtain ⟨hbfirst, hbsecond⟩ := components_of_not_isBottom hwidth hb
          have hfirst := Interval.leq_widen hafirst hbfirst
          have hsecond := Interval.leq_widen hasecond hbsecond
          have hfirst' := Interval.widen_isBottom hafirst hbfirst
          have hsecond' := Interval.widen_isBottom hasecond hbsecond
          exact ⟨leq_interval_of_leq ha hfirst.1 hsecond.1 hfirst' hsecond',
            leq_interval_of_leq hb hfirst.2 hsecond.2 hfirst' hsecond'⟩

theorem leq_join (hwidth : 1 < width) (a b : DoubleInterval width) :
    leq a (join a b) = true ∧ leq b (join a b) = true := by
  unfold join
  split
  · next ha => exact ⟨leq_of_isBottom ha b, leq_refl b⟩
  · next ha =>
      split
      · next hb => exact ⟨leq_refl a, leq_of_isBottom hb a⟩
      · next hb =>
          rw [Bool.not_eq_true] at ha hb
          obtain ⟨hafirst, hasecond⟩ := components_of_not_isBottom hwidth ha
          obtain ⟨hbfirst, hbsecond⟩ := components_of_not_isBottom hwidth hb
          have hfirst := Interval.leq_join hafirst hbfirst
          have hsecond := Interval.leq_join hasecond hbsecond
          have hfirst' := Interval.join_isBottom hafirst hbfirst
          have hsecond' := Interval.join_isBottom hasecond hbsecond
          exact ⟨leq_interval_of_leq ha hfirst.1 hsecond.1 hfirst' hsecond',
            leq_interval_of_leq hb hfirst.2 hsecond.2 hfirst' hsecond'⟩

theorem equals_refl (a : DoubleInterval width) : equals a a = true := by
  simp only [equals, Interval.equals]
  split
  · assumption
  · simp

theorem leq_top (a : DoubleInterval width) : leq a top = true := by
  have htop : (top : DoubleInterval width).isBottom = false := rfl
  cases ha : a.isBottom with
  | true => exact leq_of_isBottom ha top
  | false =>
      rw [leq_iff ha htop]
      constructor
      · unfold Interval.leq
        split
        · rfl
        · exact Bool.and_eq_true_iff.mpr
            ⟨Bound.leq_iff.mpr bot_le, Bound.leq_iff.mpr (Bound.rank_le_plusInfinity _)⟩
      · unfold Interval.leq
        split
        · rfl
        · exact Bool.and_eq_true_iff.mpr
            ⟨Bound.leq_iff.mpr bot_le, Bound.leq_iff.mpr (Bound.rank_le_plusInfinity _)⟩

/-- Normalizing is monotone. -/
theorem interval_mono {first first' : Interval.Ptr true width}
    {second second' : Interval.Ptr false width} (hfirst : first.isBottom = false)
    (hsecond : second.isBottom = false) (hleqFirst : Interval.leq first first' = true)
    (hleqSecond : Interval.leq second second' = true) :
    leq (interval first second) (interval first' second') = true := by
  have hfirst' := Interval.isBottom_of_leq hleqFirst hfirst
  have hsecond' := Interval.isBottom_of_leq hleqSecond hsecond
  by_cases htop : first'.isTop = true ∨ second'.isTop = true
  · have hinterval : interval first' second' = top := by
      apply ext_components <;> simp [interval, normalize, top, htop] <;> rfl
    rw [hinterval]
    exact leq_top _
  · have htop' : first.isTop = false ∧ second.isTop = false := by
      constructor
      · by_contra h
        exact htop (.inl (Interval.isTop_of_leq hleqFirst (by simpa using h)))
      · by_contra h
        exact htop (.inr (Interval.isTop_of_leq hleqSecond (by simpa using h)))
    have hnormal : normalize first second = (first, second) := by
      simp [normalize, htop', hfirst, hsecond]
    have hcomponents : (interval first second).first = first ∧
        (interval first second).second = second :=
      ⟨congrArg Prod.fst hnormal, congrArg Prod.snd hnormal⟩
    refine leq_interval_of_leq (interval_spec hfirst hsecond).1 ?_ ?_ hfirst' hsecond'
    · rw [hcomponents.1]
      exact hleqFirst
    · rw [hcomponents.2]
      exact hleqSecond

theorem mem_interval_of_mem {first : Interval.Ptr true width} {second : Interval.Ptr false width}
    {x : BitVec width} (hfirst : (⟨x⟩ : BitInt true width) ∈ first)
    (hsecond : (⟨x⟩ : BitInt false width) ∈ second) : x ∈ interval first second := by
  obtain ⟨-, hleqFirst, hleqSecond⟩ := interval_spec hfirst.1 hsecond.1
  exact ⟨Interval.mem_of_leq hleqFirst hfirst, Interval.mem_of_leq hleqSecond hsecond⟩

/-- A join has the members of both arguments. -/
theorem mem_join {a b : DoubleInterval width} {x : BitVec width} (hx : x ∈ a ∨ x ∈ b) :
    x ∈ join a b := by
  have hbottom : ∀ {c : DoubleInterval width}, x ∈ c → c.isBottom = false := fun hc => by
    rw [isBottom, hc.1.1, Bool.false_and]
  unfold join
  split
  · next ha => exact hx.resolve_left fun hxa => by simp [hbottom hxa] at ha
  · split
    · next hb => exact hx.resolve_right fun hxb => by simp [hbottom hxb] at hb
    · exact mem_interval_of_mem (Interval.mem_join (hx.imp And.left And.left))
        (Interval.mem_join (hx.imp And.right And.right))

end DoubleInterval

end Borealis
