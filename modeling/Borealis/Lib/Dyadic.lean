import Mathlib.Algebra.Order.Ring.Nat
import Mathlib.Tactic.Ring
import Mathlib.Tactic.Linarith

/-!
# Dyadic ranges

A range of `span c h = c * 2 ^ h` integers is halved `h` times; the ranges that appear are the
nodes of a perfect binary tree whose leaves have length `c`.  `IsNode c h lo k p` says that the
range of height `k` at `p` is one of the nodes below the range of height `h` at `lo`.  By
arithmetic these are the aligned ranges (`dvd_base`, `of_dvd`), and two of them are nested or disjoint.
-/

namespace Borealis.Lib

/-- The length of a range of height `h` over leaves of length `c`. -/
def span (c h : ℕ) : ℕ :=
  c * 2 ^ h

@[simp] theorem span_zero (c : ℕ) : span c 0 = c := by
  simp [span]

theorem span_succ (c h : ℕ) : span c (h + 1) = span c h + span c h := by
  simp only [span, pow_succ]
  ring

theorem span_pos {c : ℕ} (hc : 0 < c) (h : ℕ) : 0 < span c h := by
  simp only [span]
  positivity

theorem span_mono (c : ℕ) {k h : ℕ} (hkh : k ≤ h) : span c k ≤ span c h :=
  Nat.mul_le_mul_left c (Nat.pow_le_pow_right (by norm_num) hkh)

theorem le_span (c h : ℕ) : c ≤ span c h := by
  simpa using span_mono c (Nat.zero_le h)

theorem span_dvd_span (c : ℕ) {k h : ℕ} (hkh : k ≤ h) : span c k ∣ span c h :=
  Nat.mul_dvd_mul_left c (Nat.pow_dvd_pow 2 hkh)

theorem span_lt_span {c : ℕ} (hc : 0 < c) {k h : ℕ} (hkh : k < h) : span c k < span c h :=
  Nat.mul_lt_mul_of_pos_left (Nat.pow_lt_pow_right (by norm_num) hkh) hc

theorem le_of_span_le {c : ℕ} (hc : 0 < c) {k h : ℕ} (hspan : span c k ≤ span c h) : k ≤ h := by
  by_contra hlt
  have := span_lt_span hc (Nat.lt_of_not_le hlt)
  omega

/-- The range of height `k` at `p` is a node of the tree of height `h` at `lo`. -/
inductive IsNode (c : ℕ) : (h lo k p : ℕ) → Prop
  | here (h lo : ℕ) : IsNode c h lo h lo
  | left {h lo k p : ℕ} : IsNode c h lo k p → IsNode c (h + 1) lo k p
  | right {h lo k p : ℕ} : IsNode c h (lo + span c h) k p → IsNode c (h + 1) lo k p

namespace IsNode

variable {c h lo k p : ℕ}

theorem height_le (hn : IsNode c h lo k p) : k ≤ h := by
  induction hn with
  | here => exact le_rfl
  | left _ ih => exact Nat.le_succ_of_le ih
  | right _ ih => exact Nat.le_succ_of_le ih

theorem le_base (hn : IsNode c h lo k p) : lo ≤ p := by
  induction hn with
  | here => exact le_rfl
  | left _ ih => exact ih
  | right _ ih => exact (Nat.le_add_right _ _).trans ih

theorem end_le (hn : IsNode c h lo k p) : p + span c k ≤ lo + span c h := by
  induction hn with
  | here => exact le_rfl
  | @left h lo k p _ ih =>
      rw [span_succ]
      linarith
  | @right h lo k p _ ih =>
      rw [span_succ]
      linarith

theorem dvd_base (hn : IsNode c h lo k p) : span c k ∣ p - lo := by
  induction hn with
  | here => simp
  | left _ ih => exact ih
  | @right h lo k p hn ih =>
      have hdvd : span c k ∣ span c h := span_dvd_span c hn.height_le
      have hle := hn.le_base
      have : p - lo = p - (lo + span c h) + span c h := by omega
      rw [this]
      exact Nat.dvd_add ih hdvd

/-- An aligned range is a node. -/
theorem of_dvd (hkh : k ≤ h) (hlo : lo ≤ p) (hdvd : span c k ∣ p - lo)
    (hend : p + span c k ≤ lo + span c h) (hc : 0 < c) : IsNode c h lo k p := by
  induction h generalizing lo with
  | zero =>
      obtain rfl : k = 0 := by omega
      obtain rfl : p = lo := by omega
      exact .here 0 p
  | succ h ih =>
      have hk := span_pos hc k
      rcases Nat.eq_or_lt_of_le hkh with rfl | hlt
      · obtain rfl : p = lo := by omega
        exact .here _ _
      · have hkh' : k ≤ h := by omega
        have hmid : span c k ∣ span c h := span_dvd_span c hkh'
        rw [span_succ] at hend
        rcases Nat.lt_or_ge p (lo + span c h) with hp | hp
        · -- an aligned range that starts before the middle ends before it
          have hroom : span c k ≤ span c h - (p - lo) :=
            Nat.le_of_dvd (by omega) (Nat.dvd_sub hmid hdvd)
          exact .left (ih hkh' hlo hdvd (by omega))
        · refine .right (ih hkh' hp ?_ (by omega))
          have : p - (lo + span c h) = p - lo - span c h := by omega
          rw [this]
          exact Nat.dvd_sub hdvd hmid

/-- Every point of a range is in one of its leaves. -/
theorem exists_leaf {a : ℕ} (hlo : lo ≤ a) (hhi : a < lo + span c h) :
    ∃ q, IsNode c h lo 0 q ∧ q ≤ a ∧ a < q + c := by
  induction h generalizing lo with
  | zero => exact ⟨lo, .here 0 lo, hlo, by rwa [span_zero] at hhi⟩
  | succ h ih =>
      rw [span_succ] at hhi
      rcases Nat.lt_or_ge a (lo + span c h) with ha | ha
      · obtain ⟨q, hq, hqa⟩ := ih hlo ha
        exact ⟨q, .left hq, hqa⟩
      · obtain ⟨q, hq, hqa⟩ := ih ha (by omega)
        exact ⟨q, .right hq, hqa⟩

end IsNode

/-! ## Rounding up -/

/-- The least multiple of `r` that is not below `n`. -/
def roundUp (n r : ℕ) : ℕ :=
  if n % r = 0 then n else (n / r + 1) * r

theorem dvd_roundUp (n r : ℕ) : r ∣ roundUp n r := by
  unfold roundUp
  split
  · next h => exact Nat.dvd_of_mod_eq_zero h
  · exact Nat.dvd_mul_left r _

theorem le_roundUp {r : ℕ} (hr : 0 < r) (n : ℕ) : n ≤ roundUp n r := by
  unfold roundUp
  split
  · exact le_rfl
  · exact (Nat.lt_mul_of_div_lt (Nat.lt_succ_self _) hr).le

end Borealis.Lib
