import Borealis.Executor.SegmentTree
import Borealis.Lib.Dyadic

/-!
# Traversal by height

In a tree over `[start, start + span chunkSize power)` every node stands for a range of length
`span chunkSize h`, where `h` is its height.  `descend` is `traverse` on such a node by recursion
on the height, without fuel and without the arithmetic of midpoints; `traverse_eq_descend` is the
connection.  All later proofs are inductions on the height.
-/

namespace Borealis

open Lib

variable {σ : Type}

/-- `traverse` on a node of height `h` at `lo`. -/
def descend (T : Traverser σ) (chunkSize : ℕ) : (h lo : ℕ) → Visit σ
  | 0, lo => fun s addr t =>
    if ¬ (lo ≤ addr ∧ addr < lo + chunkSize) then (.error .assertion, t)
    else
      match T.checkEmpty addr t with
      | .error e => (.error e, t)
      | .ok _ =>
        T.handleChunk chunkSize lo (lo + chunkSize) t.force.1 t.force.2.1 t.force.2.2 addr s
  | h + 1, lo => fun s addr t =>
    if ¬ (lo ≤ addr ∧ addr < lo + span chunkSize (h + 1)) then (.error .assertion, t)
    else
      match T.checkEmpty addr t with
      | .error e => (.error e, t)
      | .ok _ =>
        match T.handlePath (descend T chunkSize h lo)
            (descend T chunkSize h (lo + span chunkSize h)) lo (lo + span chunkSize (h + 1))
            t.force.1 t.force.2.1 t.force.2.2 addr s with
        | .done result t' => (result, t')
        | .descend s' =>
          let g := T.handleGo t.force.1 t.force.2.1 t.force.2.2
          if addr < lo + span chunkSize h then
            let r := descend T chunkSize h lo s' addr g.2.1
            (r.1, .node g.1 r.2 g.2.2)
          else
            let r := descend T chunkSize h (lo + span chunkSize h) s' addr g.2.2
            (r.1, .node g.1 g.2.1 r.2)

attribute [local simp] descend

theorem middle_span (c lo h : ℕ) : middle lo (lo + span c (h + 1)) = lo + span c h := by
  simp only [middle, span_succ]
  omega

theorem traverse_eq_descend {T : Traverser σ} {chunkSize : ℕ} (hpos : 0 < chunkSize) {h fuel : ℕ}
    (hfuel : h < fuel) (s : σ) (addr lo : ℕ) (t : NodePtr) :
    traverse T chunkSize fuel s addr t lo (lo + span chunkSize h) =
      descend T chunkSize h lo s addr t := by
  induction h generalizing fuel s addr lo t with
  | zero =>
      obtain ⟨fuel, rfl⟩ := Nat.exists_eq_succ_of_ne_zero (by omega : fuel ≠ 0)
      simp only [traverse, descend, span_zero, Nat.add_sub_cancel_left, le_refl, if_true]
      have hne : lo < lo + chunkSize := by omega
      simp only [hne, true_and]
      all_goals rfl
  | succ h ih =>
      obtain ⟨fuel, rfl⟩ := Nat.exists_eq_succ_of_ne_zero (by omega : fuel ≠ 0)
      have hh := span_pos hpos h
      have hge : chunkSize ≤ span chunkSize h := le_span chunkSize h
      have hwide : ¬ lo + span chunkSize (h + 1) - lo ≤ chunkSize := by
        rw [span_succ]
        omega
      have hne : lo < lo + span chunkSize (h + 1) := by
        rw [span_succ]
        omega
      have hleft : ∀ s addr t, traverse T chunkSize fuel s addr t lo (lo + span chunkSize h) =
          descend T chunkSize h lo s addr t :=
        fun s addr t => ih (by omega) s addr lo t
      have hright : ∀ s addr t, traverse T chunkSize fuel s addr t (lo + span chunkSize h)
          (lo + span chunkSize (h + 1)) = descend T chunkSize h (lo + span chunkSize h) s addr t := by
        intro s addr t
        rw [span_succ, ← Nat.add_assoc]
        exact ih (by omega) s addr (lo + span chunkSize h) t
      simp only [traverse, descend, middle_span, hwide, if_false, hleft, hright, hne, true_and]
      all_goals rfl

/-! ## Steps of a walk -/

theorem map_map_unit {α β : Type} (r : Except Fault α) (b : β) :
    (r.map fun _ => b).map (fun _ => ()) = r.map fun _ => () := by
  cases r <;> rfl

section Steps

variable {T : Traverser σ} {c h lo addr : ℕ} {s s' : σ} {t t' : NodePtr}

theorem descend_outside (haddr : ¬ (lo ≤ addr ∧ addr < lo + span c h)) :
    descend T c h lo s addr t = (.error .assertion, t) := by
  cases h with
  | zero =>
      rw [span_zero] at haddr
      simp [descend, haddr]
  | succ h => simp [descend, haddr]

theorem descend_empty (haddr : lo ≤ addr ∧ addr < lo + span c h) {e : Fault}
    (hempty : T.checkEmpty addr t = .error e) : descend T c h lo s addr t = (.error e, t) := by
  cases h with
  | zero =>
      rw [span_zero] at haddr
      simp [descend, haddr, hempty]
  | succ h => simp [descend, haddr, hempty]

theorem descend_chunk (haddr : lo ≤ addr ∧ addr < lo + c) (hempty : T.checkEmpty addr t = .ok ()) :
    descend T c 0 lo s addr t =
      T.handleChunk c lo (lo + c) t.force.1 t.force.2.1 t.force.2.2 addr s := by
  simp [descend, haddr, hempty]

theorem descend_done {result : Except Fault σ} (haddr : lo ≤ addr ∧ addr < lo + span c (h + 1))
    (hempty : T.checkEmpty addr t = .ok ())
    (hpath : T.handlePath (descend T c h lo) (descend T c h (lo + span c h)) lo
      (lo + span c (h + 1)) t.force.1 t.force.2.1 t.force.2.2 addr s = .done result t') :
    descend T c (h + 1) lo s addr t = (result, t') := by
  simp [descend, haddr, hempty, hpath]

theorem descend_left (haddr : lo ≤ addr ∧ addr < lo + span c h)
    (hempty : T.checkEmpty addr t = .ok ())
    (hpath : T.handlePath (descend T c h lo) (descend T c h (lo + span c h)) lo
      (lo + span c (h + 1)) t.force.1 t.force.2.1 t.force.2.2 addr s = .descend s') :
    descend T c (h + 1) lo s addr t =
      let g := T.handleGo t.force.1 t.force.2.1 t.force.2.2
      let r := descend T c h lo s' addr g.2.1
      (r.1, .node g.1 r.2 g.2.2) := by
  have hin : lo ≤ addr ∧ addr < lo + span c (h + 1) := by
    rw [span_succ]
    omega
  simp [descend, hin, hempty, hpath, haddr.2]

theorem descend_right (haddr : lo + span c h ≤ addr ∧ addr < lo + span c h + span c h)
    (hempty : T.checkEmpty addr t = .ok ())
    (hpath : T.handlePath (descend T c h lo) (descend T c h (lo + span c h)) lo
      (lo + span c (h + 1)) t.force.1 t.force.2.1 t.force.2.2 addr s = .descend s') :
    descend T c (h + 1) lo s addr t =
      let g := T.handleGo t.force.1 t.force.2.1 t.force.2.2
      let r := descend T c h (lo + span c h) s' addr g.2.2
      (r.1, .node g.1 g.2.1 r.2) := by
  have hin : lo ≤ addr ∧ addr < lo + span c (h + 1) := by
    rw [span_succ]
    omega
  have hnot : ¬ addr < lo + span c h := by omega
  simp [descend, hin, hempty, hpath, hnot]

end Steps

/-! ## Relations kept by a walk -/

/-- What the handlers of a traverser have to keep for a relation between the node pointers before
and after a visit to hold of every walk. -/
structure Keeps (T : Traverser σ) (chunkSize : ℕ) (R : ℕ → NodePtr → NodePtr → Prop) : Prop where
  refl : ∀ h t, R h t t
  chunk : ∀ lo t addr s, R 0 t (T.handleChunk chunkSize lo (lo + chunkSize) t.force.1 t.force.2.1
    t.force.2.2 addr s).2
  path : ∀ h lo t addr s (visitLeft visitRight : Visit σ) result t',
    (∀ s addr t, R h t (visitLeft s addr t).2) → (∀ s addr t, R h t (visitRight s addr t).2) →
    T.handlePath visitLeft visitRight lo (lo + span chunkSize (h + 1)) t.force.1 t.force.2.1
      t.force.2.2 addr s = .done result t' → R (h + 1) t t'
  goLeft : ∀ h t left', R h (T.handleGo t.force.1 t.force.2.1 t.force.2.2).2.1 left' →
    R (h + 1) t (.node (T.handleGo t.force.1 t.force.2.1 t.force.2.2).1 left'
      (T.handleGo t.force.1 t.force.2.1 t.force.2.2).2.2)
  goRight : ∀ h t right', R h (T.handleGo t.force.1 t.force.2.1 t.force.2.2).2.2 right' →
    R (h + 1) t (.node (T.handleGo t.force.1 t.force.2.1 t.force.2.2).1
      (T.handleGo t.force.1 t.force.2.1 t.force.2.2).2.1 right')

end Borealis
