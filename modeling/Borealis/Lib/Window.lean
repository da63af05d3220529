import Mathlib.Algebra.Order.Ring.Int
import Mathlib.Tactic.Linarith
import Mathlib.Tactic.Ring

/-!
# Integers in a window

Fixed-width arithmetic keeps, of an integer `z`, the representative modulo `m` that lies in the
window `[lo, lo + m)`.  `wrap` is this representative and `turn` counts how often the window has
to be moved to reach `z`.  On one turn `wrap` is a shift and so keeps the order; a range that
crosses into another turn contains integers that wrap to both ends of the window.

The last section bounds a product of two integers by the four products of the ends of their
ranges.
-/

namespace Borealis.Lib

section Window

variable (lo m : ℤ)

/-- The representative of `z` modulo `m` in `[lo, lo + m)`. -/
def wrap (z : ℤ) : ℤ :=
  (z - lo) % m + lo

/-- The window `z` lies in, the one that starts at `lo` having number `0`. -/
def turn (z : ℤ) : ℤ :=
  (z - lo) / m

variable {lo m} {z z' : ℤ}

theorem wrap_add_mul_turn (lo m z : ℤ) : wrap lo m z + m * turn lo m z = z := by
  have := Int.emod_add_mul_ediv (z - lo) m
  simp only [wrap, turn]
  linarith

theorem le_wrap (hm : 0 < m) (z : ℤ) : lo ≤ wrap lo m z := by
  have := Int.emod_nonneg (z - lo) hm.ne'
  simp only [wrap]
  linarith

theorem wrap_lt (hm : 0 < m) (z : ℤ) : wrap lo m z < lo + m := by
  have := Int.emod_lt_of_pos (z - lo) hm
  simp only [wrap]
  linarith

/-- An integer of the window is the representative of everything congruent to it. -/
theorem wrap_eq_of_mem {v : ℤ} (hlo : lo ≤ v) (hhi : v < lo + m) (hmod : z % m = v % m) :
    wrap lo m z = v := by
  have hsub : (z - lo) % m = (v - lo) % m := by
    rw [Int.sub_emod, hmod, ← Int.sub_emod]
  rw [wrap, hsub, Int.emod_eq_of_lt (by linarith) (by linarith)]
  ring

theorem turn_mono (hm : 0 < m) (h : z ≤ z') : turn lo m z ≤ turn lo m z' :=
  Int.ediv_le_ediv hm (by linarith)

/-- Between two integers of one turn there are only integers of that turn. -/
theorem turn_eq_of_between (hm : 0 < m) {t : ℤ} (hz : z ≤ t) (hz' : t ≤ z')
    (hturn : turn lo m z = turn lo m z') : turn lo m t = turn lo m z :=
  le_antisymm (hturn ▸ turn_mono hm hz') (turn_mono hm hz)

/-- On one turn `wrap` keeps the order. -/
theorem wrap_le_wrap_iff (hturn : turn lo m z = turn lo m z') :
    wrap lo m z ≤ wrap lo m z' ↔ z ≤ z' := by
  have hz := wrap_add_mul_turn lo m z
  have hz' := wrap_add_mul_turn lo m z'
  rw [hturn] at hz
  constructor <;> intro h <;> linarith

/-- The first integer of a turn wraps to the lower end of the window. -/
theorem wrap_first (hm : 0 < m) (t : ℤ) : wrap lo m (lo + m * t) = lo :=
  wrap_eq_of_mem le_rfl (by linarith) (by simp)

/-- The integer before the first one of a turn wraps to the upper end of the window. -/
theorem wrap_last (hm : 0 < m) (t : ℤ) : wrap lo m (lo + m * t - 1) = lo + m - 1 := by
  refine wrap_eq_of_mem (by linarith) (by linarith) ?_
  have : lo + m * t - 1 = lo + m - 1 + m * (t - 1) := by ring
  rw [this, Int.add_mul_emod_self_left]

/-- A range that leaves a turn contains the first integer of the turn it ends in, and the one
before it. -/
theorem exists_boundary (hm : 0 < m) (hturn : turn lo m z < turn lo m z') :
    z ≤ lo + m * turn lo m z' - 1 ∧ lo + m * turn lo m z' ≤ z' := by
  have hz := wrap_add_mul_turn lo m z
  have hz' := wrap_add_mul_turn lo m z'
  have hlt : wrap lo m z < lo + m := wrap_lt hm z
  have hle : lo ≤ wrap lo m z' := le_wrap hm z'
  have hstep : m * (turn lo m z + 1) ≤ m * turn lo m z' :=
    mul_le_mul_of_nonneg_left hturn hm.le
  constructor <;> linarith

/-- **The wrapped lower end of a range bounds the wrapped range** exactly when the range stays
in one turn or its lower end wraps to the least value. -/
theorem forall_wrap_ge_iff (hm : 0 < m) (h : z ≤ z') :
    (∀ t, z ≤ t → t ≤ z' → wrap lo m z ≤ wrap lo m t) ↔
      turn lo m z = turn lo m z' ∨ wrap lo m z = lo := by
  constructor
  · intro hall
    rcases (turn_mono hm h).eq_or_lt with hturn | hturn
    · exact Or.inl hturn
    · obtain ⟨hlast, hfirst⟩ := exists_boundary hm hturn
      have := hall _ (by linarith) hfirst
      rw [wrap_first hm] at this
      exact Or.inr (le_antisymm this (le_wrap hm z))
  · rintro (hturn | hlo) t hz hz'
    · exact (wrap_le_wrap_iff (turn_eq_of_between hm hz hz' hturn).symm).mpr hz
    · rw [hlo]
      exact le_wrap hm t

/-- **The wrapped upper end of a range bounds the wrapped range** exactly when the range stays
in one turn or its upper end wraps to the greatest value. -/
theorem forall_wrap_le_iff (hm : 0 < m) (h : z ≤ z') :
    (∀ t, z ≤ t → t ≤ z' → wrap lo m t ≤ wrap lo m z') ↔
      turn lo m z = turn lo m z' ∨ wrap lo m z' = lo + m - 1 := by
  constructor
  · intro hall
    rcases (turn_mono hm h).eq_or_lt with hturn | hturn
    · exact Or.inl hturn
    · obtain ⟨hlast, hfirst⟩ := exists_boundary hm hturn
      have hle := hall _ hlast (by linarith)
      have hlt : wrap lo m z' < lo + m := wrap_lt hm z'
      rw [wrap_last hm] at hle
      exact Or.inr (by linarith)
  · rintro (hturn | hhi) t hz hz'
    · have := turn_eq_of_between hm hz hz' hturn
      exact (wrap_le_wrap_iff (this.trans hturn)).mpr hz'
    · have : wrap lo m t < lo + m := wrap_lt hm t
      linarith

/-- **A number bounds a wrapped range from below** when the range stays in one turn and its start
is above the number, or the number is at most the lower end of the window. -/
theorem forall_le_wrap_iff (hm : 0 < m) (h : z ≤ z') {c : ℤ} :
    (∀ t, z ≤ t → t ≤ z' → c ≤ wrap lo m t) ↔
      if turn lo m z = turn lo m z' then c ≤ wrap lo m z else c ≤ lo := by
  split
  · next hturn =>
      refine ⟨fun hall => hall z le_rfl h, fun hc t hz hz' => hc.trans ?_⟩
      exact (wrap_le_wrap_iff (turn_eq_of_between hm hz hz' hturn).symm).mpr hz
  · next hturn =>
      constructor
      · intro hall
        obtain ⟨hlast, hfirst⟩ := exists_boundary hm ((turn_mono hm h).lt_of_ne hturn)
        have := hall _ (by linarith) hfirst
        rwa [wrap_first hm] at this
      · exact fun hc t _ _ => hc.trans (le_wrap hm t)

/-- **A number bounds a wrapped range from above** when the range stays in one turn and its end is
below the number, or the number is at least the upper end of the window. -/
theorem forall_wrap_le_bound_iff (hm : 0 < m) (h : z ≤ z') {c : ℤ} :
    (∀ t, z ≤ t → t ≤ z' → wrap lo m t ≤ c) ↔
      if turn lo m z = turn lo m z' then wrap lo m z' ≤ c else lo + m - 1 ≤ c := by
  split
  · next hturn =>
      refine ⟨fun hall => hall z' h le_rfl, fun hc t hz hz' => le_trans ?_ hc⟩
      exact (wrap_le_wrap_iff ((turn_eq_of_between hm hz hz' hturn).trans hturn)).mpr hz'
  · next hturn =>
      constructor
      · intro hall
        obtain ⟨hlast, hfirst⟩ := exists_boundary hm ((turn_mono hm h).lt_of_ne hturn)
        have := hall _ hlast (by linarith)
        rwa [wrap_last hm] at this
      · intro hc t _ _
        have : wrap lo m t < lo + m := wrap_lt hm t
        linarith

end Window

/-! ## Products over a box -/

section Box

/-- The products of the ends of two ranges. -/
def corners (l u l' u' : ℤ) : List ℤ :=
  [l * l', u * l', l * u', u * u']

variable {l u l' u' x y : ℤ}

/-- A product over a box is not below all corners. -/
theorem exists_corner_le (hl : l ≤ x) (hu : x ≤ u) (hl' : l' ≤ y) (hu' : y ≤ u') :
    ∃ c ∈ corners l u l' u', c ≤ x * y := by
  rcases le_total 0 y with hy | hy
  · have hx : l * y ≤ x * y := mul_le_mul_of_nonneg_right hl hy
    rcases le_total 0 l with hl0 | hl0
    · exact ⟨l * l', by simp [corners], (mul_le_mul_of_nonneg_left hl' hl0).trans hx⟩
    · exact ⟨l * u', by simp [corners], (mul_le_mul_of_nonpos_left hu' hl0).trans hx⟩
  · have hx : u * y ≤ x * y := mul_le_mul_of_nonpos_right hu hy
    rcases le_total 0 u with hu0 | hu0
    · exact ⟨u * l', by simp [corners], (mul_le_mul_of_nonneg_left hl' hu0).trans hx⟩
    · exact ⟨u * u', by simp [corners], (mul_le_mul_of_nonpos_left hu' hu0).trans hx⟩

/-- A product over a box is not above all corners. -/
theorem exists_le_corner (hl : l ≤ x) (hu : x ≤ u) (hl' : l' ≤ y) (hu' : y ≤ u') :
    ∃ c ∈ corners l u l' u', x * y ≤ c := by
  rcases le_total 0 y with hy | hy
  · have hx : x * y ≤ u * y := mul_le_mul_of_nonneg_right hu hy
    rcases le_total 0 u with hu0 | hu0
    · exact ⟨u * u', by simp [corners], hx.trans (mul_le_mul_of_nonneg_left hu' hu0)⟩
    · exact ⟨u * l', by simp [corners], hx.trans (mul_le_mul_of_nonpos_left hl' hu0)⟩
  · have hx : x * y ≤ l * y := mul_le_mul_of_nonpos_right hl hy
    rcases le_total 0 l with hl0 | hl0
    · exact ⟨l * u', by simp [corners], hx.trans (mul_le_mul_of_nonneg_left hu' hl0)⟩
    · exact ⟨l * l', by simp [corners], hx.trans (mul_le_mul_of_nonpos_left hl' hl0)⟩

end Box

end Borealis.Lib
