import Borealis.Interpreter.IntervalLattice

/-!
# The laws of the interval lattice

An interval denotes the extended integers between its bounds: `-oo` and `+oo` are values of their
own, below and above every number, as the comparisons of `Bound` have them.  So `[-oo, 5]` and
`[MIN, 5]` hold the same machine integers and are different intervals.

Bottom is the pair of the bounds `1` and `0`, recognised from its bounds when it is interned.  In
the signed integers of one bit the bound `1` is `-1`, and the pair is the whole type.
-/

namespace Borealis

theorem Bound.rank_injective {sign : Bool} {width : Nat} :
    Function.Injective (Bound.rank : Bound sign width → WithBot (WithTop ℤ)) := by
  intro b c h
  cases b <;> cases c <;> simp [rank, BitInt.toInt_injective.eq_iff] at h <;> simp [h]

namespace Interval

variable {sign : Bool} {width : Nat}

/-- The extended integers of an interval. -/
def denote (a : Ptr sign width) : Set (WithBot (WithTop ℤ)) :=
  Set.Icc a.lb.rank a.ub.rank

theorem mem_iff_rank_mem {a : Ptr sign width} {x : BitInt sign width} :
    x ∈ a ↔ (Bound.finite x).rank ∈ denote a :=
  mem_iff

theorem denote_eq_empty_iff {a : Ptr sign width} : denote a = ∅ ↔ a.isBottom = true := by
  rw [denote, Set.Icc_eq_empty_iff, not_le, isBottom_iff]

/-- How often a sequence changes in its first `n` steps. -/
def changes (x : Nat → Ptr sign width) : Nat → Nat
  | 0 => 0
  | n + 1 => changes x n + if equals (x n) (x (n + 1)) then 0 else 1

/-- The laws of a lattice with a terminating widening. -/
structure LatticeLaws (sign : Bool) (width : Nat) : Prop where
  bottom_isBottom : (bottom : Ptr sign width).isBottom = true
  denote_bottom : denote (bottom : Ptr sign width) = ∅
  leq_iff_subset : ∀ a b : Ptr sign width, leq a b = true ↔ denote a ⊆ denote b
  equals_iff : ∀ a b : Ptr sign width,
    equals a b = true ↔ leq a b = true ∧ leq b a = true
  above_join : ∀ a b : Ptr sign width, leq a (join a b) = true ∧ leq b (join a b) = true
  join_least : ∀ a b c : Ptr sign width,
    leq a c = true → leq b c = true → leq (join a b) c = true
  denote_meet : ∀ a b : Ptr sign width,
    denote (a.toInterval.meet b.toInterval) = denote a ∩ denote b
  above_widen : ∀ a b : Ptr sign width, leq a (widen a b) = true ∧ leq b (widen a b) = true
  widen_changes : ∀ x y : Nat → Ptr sign width, (∀ n, x (n + 1) = widen (x n) (y n)) →
    ∀ n, changes x n ≤ 3

/-! ## The order -/

theorem leq_of_isBottom {a : Ptr sign width} (ha : a.isBottom = true) (b : Ptr sign width) :
    leq a b = true := by
  simp [leq, ha]

theorem leq_iff_denote_subset (a b : Ptr sign width) :
    leq a b = true ↔ denote a ⊆ denote b := by
  cases ha : a.isBottom with
  | true => simp [leq, ha, denote_eq_empty_iff.mpr ha]
  | false =>
      have hle := isBottom_eq_false_iff.mp ha
      rw [denote, denote, Set.Icc_subset_Icc_iff hle]
      cases hb : b.isBottom with
      | true =>
          have hlt := isBottom_iff.mp hb
          simp only [leq, ha, hb, Bool.false_eq_true, if_false, if_true, false_iff, not_and]
          exact fun hlb hub => absurd ((hlb.trans hle).trans hub) hlt.not_ge
      | false => exact leq_iff ha hb

theorem equals_iff_leq (a b : Ptr sign width) :
    equals a b = true ↔ leq a b = true ∧ leq b a = true := by
  cases ha : a.isBottom with
  | true => cases hb : b.isBottom <;> simp [equals, leq, ha, hb]
  | false =>
      cases hb : b.isBottom with
      | true => simp [equals, leq, ha, hb]
      | false =>
          rw [leq_iff ha hb, leq_iff hb ha]
          simp only [equals, ha, hb, Bool.false_eq_true, if_false, Bool.and_eq_true, beq_iff_eq]
          rw [← Bound.rank_injective.eq_iff, ← Bound.rank_injective.eq_iff, le_antisymm_iff,
            le_antisymm_iff]
          tauto

/-! ## Joins, meets and widenings -/

theorem leq_join_both (a b : Ptr sign width) :
    leq a (join a b) = true ∧ leq b (join a b) = true := by
  cases ha : a.isBottom with
  | true => simpa [join, ha] using ⟨leq_of_isBottom ha b, leq_refl b⟩
  | false =>
      cases hb : b.isBottom with
      | true => simpa [join, ha, hb] using ⟨leq_refl a, leq_of_isBottom hb a⟩
      | false => exact leq_join ha hb

theorem join_leq (a b c : Ptr sign width) (hac : leq a c = true) (hbc : leq b c = true) :
    leq (join a b) c = true := by
  cases ha : a.isBottom with
  | true => simpa [join, ha] using hbc
  | false =>
      cases hb : b.isBottom with
      | true => simpa [join, ha, hb] using hac
      | false =>
          have hc := isBottom_of_leq hac ha
          rw [leq_iff ha hc] at hac
          rw [leq_iff hb hc] at hbc
          rw [leq_iff (join_isBottom ha hb) hc, join_lb ha hb, join_ub ha hb]
          exact ⟨le_min hac.1 hbc.1, max_le hac.2 hbc.2⟩

theorem denote_meet_eq (hbottom : denote (bottom : Ptr sign width) = ∅) (a b : Ptr sign width) :
    denote (a.toInterval.meet b.toInterval) = denote a ∩ denote b := by
  unfold meet
  split
  · next h =>
      rw [hbottom]
      rcases Bool.or_eq_true_iff.mp h with h | h
      · rw [denote_eq_empty_iff.mpr h, Set.empty_inter]
      · rw [denote_eq_empty_iff.mpr h, Set.inter_empty]
  · simp only [denote, Set.Icc_inter_Icc, interval_toInterval, ofBounds_lb, ofBounds_ub,
      Bound.rank_max, Bound.rank_min]

theorem leq_widen_both (a b : Ptr sign width) :
    leq a (widen a b) = true ∧ leq b (widen a b) = true := by
  cases ha : a.isBottom with
  | true => simpa [widen, ha, clone_eq] using ⟨leq_of_isBottom ha b, leq_refl b⟩
  | false =>
      cases hb : b.isBottom with
      | true => simpa [widen, ha, hb] using ⟨leq_refl a, leq_of_isBottom hb a⟩
      | false => exact leq_widen ha hb

/-! ## Widening terminates -/

/-- The changes an interval has left: from bottom to an interval, and one for each end that is not
yet open. -/
def changesLeft (a : Ptr sign width) : Nat :=
  if a.isBottom then 3
  else (if a.lb = .minusInfinity then 0 else 1) + (if a.ub = .plusInfinity then 0 else 1)

theorem changesLeft_le (a : Ptr sign width) : changesLeft a ≤ 3 := by
  unfold changesLeft
  split_ifs <;> omega

theorem changesLeft_le_of_not_isBottom {a : Ptr sign width} (ha : a.isBottom = false) :
    changesLeft a ≤ 2 := by
  unfold changesLeft
  rw [if_neg (by simp [ha])]
  split_ifs <;> omega

/-- A widening that changes the interval uses up a change. -/
theorem changesLeft_widen (a b : Ptr sign width) :
    changesLeft (widen a b) + (if equals a (widen a b) then 0 else 1) ≤ changesLeft a := by
  cases ha : a.isBottom with
  | true =>
      have hleft : changesLeft a = 3 := by simp [changesLeft, ha]
      have hwiden : widen a b = b := by simp [widen, ha, clone_eq]
      rw [hleft, hwiden]
      cases hb : b.isBottom with
      | true => simpa [equals, ha, hb] using changesLeft_le b
      | false =>
          refine Nat.add_le_add (changesLeft_le_of_not_isBottom hb) (?_ : _ ≤ 1)
          split <;> decide
  | false =>
      cases hb : b.isBottom with
      | true =>
          have hwiden : widen a b = a := by simp [widen, ha, hb]
          rw [hwiden, (equals_iff_leq a a).mpr ⟨leq_refl a, leq_refl a⟩]
          simp
      | false =>
          have hlb := widen_lb ha hb
          have hub := widen_ub ha hb
          have hlower : b.lb.rank < a.lb.rank → a.lb ≠ .minusInfinity := by
            rintro hlt heq
            exact absurd (heq ▸ hlt) not_lt_bot
          have hupper : a.ub.rank < b.ub.rank → a.ub ≠ .plusInfinity := by
            rintro hlt heq
            exact absurd (heq ▸ hlt) (Bound.rank_le_plusInfinity _).not_gt
          have hequals : ¬ b.lb.rank < a.lb.rank → ¬ a.ub.rank < b.ub.rank →
              equals a (widen a b) = true := by
            intro hlower hupper
            rw [ext_bounds (hlb.trans (if_neg hlower)) (hub.trans (if_neg hupper))]
            exact (equals_iff_leq a a).mpr ⟨leq_refl a, leq_refl a⟩
          simp only [changesLeft, ha, widen_isBottom ha hb, Bool.false_eq_true, if_false, hlb, hub]
          split_ifs <;> simp_all

/-- A sequence of widenings uses up the changes its first interval has left. -/
theorem changes_add_changesLeft (x y : Nat → Ptr sign width)
    (hstep : ∀ n, x (n + 1) = widen (x n) (y n)) (n : Nat) :
    changes x n + changesLeft (x n) ≤ changesLeft (x 0) := by
  induction n with
  | zero => simp [changes]
  | succ n ih =>
      have := changesLeft_widen (x n) (y n)
      rw [← hstep] at this
      rw [changes]
      omega

/-! ## The laws -/

theorem latticeLaws_of_bottom (h : (bottom : Ptr sign width).isBottom = true) :
    LatticeLaws sign width where
  bottom_isBottom := h
  denote_bottom := denote_eq_empty_iff.mpr h
  leq_iff_subset := leq_iff_denote_subset
  equals_iff := equals_iff_leq
  above_join := leq_join_both
  join_least := join_leq
  denote_meet := denote_meet_eq (denote_eq_empty_iff.mpr h)
  above_widen := leq_widen_both
  widen_changes x y hstep n :=
    le_trans (Nat.le_add_right _ _)
      ((changes_add_changesLeft x y hstep n).trans (changesLeft_le (x 0)))

/-- **Intervals are a lattice with a terminating widening**, except for signed integers of one
bit. -/
theorem latticeLaws_iff (sign : Bool) (width : Nat) :
    LatticeLaws sign width ↔ 1 < width ∨ sign = false ∧ width = 1 := by
  constructor
  · intro h
    by_contra hwidth
    have hbottom := h.bottom_isBottom
    obtain rfl | rfl : width = 0 ∨ width = 1 := by omega
    · revert hbottom
      cases sign <;> decide
    · cases sign with
      | false => exact hwidth (Or.inr ⟨rfl, rfl⟩)
      | true => exact absurd hbottom (by decide)
  · rintro (h | ⟨rfl, rfl⟩)
    · exact latticeLaws_of_bottom (DoubleInterval.isBottom_bottom h sign)
    · exact latticeLaws_of_bottom (by decide)

/-- Bottom of one signed bit is the whole type. -/
theorem latticeLaws_fails : ¬ ∀ (sign : Bool) (width : Nat), 1 ≤ width → LatticeLaws sign width :=
  fun h => absurd (h true 1 le_rfl).bottom_isBottom (by decide)

end Interval

end Borealis
