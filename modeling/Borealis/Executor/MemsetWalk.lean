import Borealis.Executor.Descend

/-!
# The walk of a memset

`MemsetWalk` describes `memsetTraverser` as a big-step relation, in the manner of `StoreWalk`.
-/

namespace Borealis

open Lib

/-- A memset of `s.size` bytes at `addr` in the node `t` of height `h` at `lo`. -/
inductive MemsetWalk (c : ℕ) (fill : UInt8) :
    (h lo addr : ℕ) → MemsetState → NodePtr → Except Fault Unit → NodePtr → Prop
  | outside {h lo addr s t} : ¬ (lo ≤ addr ∧ addr < lo + span c h) →
      MemsetWalk c fill h lo addr s t (.error .assertion) t
  | whole {lo addr s t} : (lo ≤ addr ∧ addr < lo + c) → s.size = c →
      MemsetWalk c fill 0 lo addr s t (.ok ())
        (.node { t.force.1 with state := .memset, memSetTo := fill, chunk := none }
          t.force.2.1 t.force.2.2)
  | pastEnd {lo addr s t} : (lo ≤ addr ∧ addr < lo + c) → s.size < c →
      ¬ ptrAdd addr s.size < lo + c →
      MemsetWalk c fill 0 lo addr s t (.error .assertion)
        (.node t.force.1 t.force.2.1 t.force.2.2)
  | part {lo addr s t} : (lo ≤ addr ∧ addr < lo + c) → s.size < c →
      ptrAdd addr s.size < lo + c →
      MemsetWalk c fill 0 lo addr s t (.ok ())
        (.node { t.force.1 with
          state := .unknown
          chunk := some ((t.force.1.chunk.getD Chunk.fresh).memset (addr - lo) fill s.size) }
          t.force.2.1 t.force.2.2)
  | skip {lo addr s t} : (lo ≤ addr ∧ addr < lo + c) → c < s.size →
      MemsetWalk c fill 0 lo addr s t (.ok ()) (.node t.force.1 t.force.2.1 t.force.2.2)
  | lazy {h lo addr s t} : (lo ≤ addr ∧ addr < lo + span c (h + 1)) →
      t.force.1.state ≠ .unknown → lo ≤ s.dest → ptrAdd s.dest s.size ≤ lo + span c (h + 1) →
      MemsetWalk c fill (h + 1) lo addr s t (.ok ())
        (.node { t.force.1 with state := .memset, memSetTo := fill } t.force.2.1 t.force.2.2)
  | splitFail {h lo addr s t e left'} : (lo ≤ addr ∧ addr < lo + span c (h + 1)) →
      addr < lo + span c h → lo + span c h < ptrAdd addr s.size →
      MemsetWalk c fill h lo addr ⟨s.dest, lo + span c h - addr⟩
        (t.force.2.1.derive t.force.1) (.error e) left' →
      MemsetWalk c fill (h + 1) lo addr s t (.error e)
        (.node t.force.1.invalidate left' (t.force.2.2.derive t.force.1))
  | split {h lo addr s t result left' right'} : (lo ≤ addr ∧ addr < lo + span c (h + 1)) →
      addr < lo + span c h → lo + span c h < ptrAdd addr s.size →
      MemsetWalk c fill h lo addr ⟨s.dest, lo + span c h - addr⟩
        (t.force.2.1.derive t.force.1) (.ok ()) left' →
      MemsetWalk c fill h (lo + span c h) (lo + span c h)
        ⟨ptrAdd s.dest (lo + span c h - addr), s.size - (lo + span c h - addr)⟩
        (t.force.2.2.derive t.force.1) result right' →
      MemsetWalk c fill (h + 1) lo addr s t result (.node t.force.1.invalidate left' right')
  | left {h lo addr s t result left'} : (lo ≤ addr ∧ addr < lo + span c h) →
      MemsetWalk c fill h lo addr s (t.force.2.1.derive t.force.1) result left' →
      MemsetWalk c fill (h + 1) lo addr s t result
        (.node t.force.1.invalidate left' (t.force.2.2.derive t.force.1))
  | right {h lo addr s t result right'} :
      (lo + span c h ≤ addr ∧ addr < lo + span c h + span c h) →
      MemsetWalk c fill h (lo + span c h) addr s (t.force.2.2.derive t.force.1) result right' →
      MemsetWalk c fill (h + 1) lo addr s t result
        (.node t.force.1.invalidate (t.force.2.1.derive t.force.1) right')

@[simp] theorem memsetTraverser_checkEmpty (fill : UInt8) (addr : ℕ) (t : NodePtr) :
    (memsetTraverser fill).checkEmpty addr t = .ok () := by
  cases t <;> rfl

/-- The traversal of `memsetTraverser` follows the rules in a chunk. -/
theorem memsetWalk_chunk {c lo addr : ℕ} {fill : UInt8} (haddr : lo ≤ addr ∧ addr < lo + c)
    (s : MemsetState) (t : NodePtr) :
    MemsetWalk c fill 0 lo addr s t
      ((descend (memsetTraverser fill) c 0 lo s addr t).1.map fun _ => ())
      (descend (memsetTraverser fill) c 0 lo s addr t).2 := by
  rw [descend_chunk haddr (memsetTraverser_checkEmpty fill addr t)]
  simp only [memsetTraverser]
  rcases Nat.lt_trichotomy s.size c with hlt | heq | hgt
  · simp only [hlt.ne, hlt.le, if_false, if_true]
    by_cases hend : ptrAdd addr s.size < lo + c
    · simp only [hend, not_true, if_false]
      exact .part haddr hlt hend
    · simp only [hend, not_false_iff, if_true]
      exact .pastEnd haddr hlt hend
  · simp only [heq, if_true]
    exact .whole haddr heq
  · simp only [hgt.ne', Nat.not_le.mpr hgt, if_false]
    exact .skip haddr hgt

section Path

variable {c h lo addr : ℕ} {fill : UInt8} {s : MemsetState} {n : SegmentNode} {l r : NodePtr}
  {visitLeft visitRight : Visit MemsetState}

theorem memset_handlePath_lazy (hlazy : n.state ≠ .unknown ∧ lo ≤ s.dest ∧
      ptrAdd s.dest s.size ≤ lo + span c (h + 1)) :
    (memsetTraverser fill).handlePath visitLeft visitRight lo (lo + span c (h + 1)) n l r addr s =
      .done (.ok s) (.node { n with state := .memset, memSetTo := fill } l r) := by
  simp only [memsetTraverser]
  rw [if_pos hlazy]

theorem memset_handlePath_descend (hlazy : ¬ (n.state ≠ .unknown ∧ lo ≤ s.dest ∧
      ptrAdd s.dest s.size ≤ lo + span c (h + 1)))
    (hsplit : ¬ (addr < lo + span c h ∧ lo + span c h < ptrAdd addr s.size)) :
    (memsetTraverser fill).handlePath visitLeft visitRight lo (lo + span c (h + 1)) n l r addr s =
      .descend s := by
  simp only [memsetTraverser, middle_span]
  rw [if_neg hlazy, if_neg hsplit]

theorem memset_handlePath_splitFail {e : Fault} {left' : NodePtr}
    (hlazy : ¬ (n.state ≠ .unknown ∧ lo ≤ s.dest ∧ ptrAdd s.dest s.size ≤ lo + span c (h + 1)))
    (hsplit : addr < lo + span c h ∧ lo + span c h < ptrAdd addr s.size)
    (hleft : visitLeft ⟨s.dest, lo + span c h - addr⟩ addr (l.derive n) = (.error e, left')) :
    (memsetTraverser fill).handlePath visitLeft visitRight lo (lo + span c (h + 1)) n l r addr s =
      .done (.error e) (.node n.invalidate left' (r.derive n)) := by
  simp only [memsetTraverser, middle_span]
  rw [if_neg hlazy, if_pos hsplit]
  simp only [forceChildrenAndDeriveState, hleft]

theorem memset_handlePath_split {v : MemsetState} {left' right' : NodePtr}
    {result : Except Fault MemsetState}
    (hlazy : ¬ (n.state ≠ .unknown ∧ lo ≤ s.dest ∧ ptrAdd s.dest s.size ≤ lo + span c (h + 1)))
    (hsplit : addr < lo + span c h ∧ lo + span c h < ptrAdd addr s.size)
    (hleft : visitLeft ⟨s.dest, lo + span c h - addr⟩ addr (l.derive n) = (.ok v, left'))
    (hright : visitRight ⟨ptrAdd s.dest (lo + span c h - addr), s.size - (lo + span c h - addr)⟩
      (lo + span c h) (r.derive n) = (result, right')) :
    (memsetTraverser fill).handlePath visitLeft visitRight lo (lo + span c (h + 1)) n l r addr s =
      .done (result.map fun _ => s) (.node n.invalidate left' right') := by
  simp only [memsetTraverser, middle_span]
  rw [if_neg hlazy, if_pos hsplit]
  cases result <;> simp only [forceChildrenAndDeriveState, hleft, hright, Except.map]

end Path

/-- The traversal of `memsetTraverser` follows the rules. -/
theorem memsetWalk_descend (c h lo addr : ℕ) (fill : UInt8) (s : MemsetState) (t : NodePtr) :
    MemsetWalk c fill h lo addr s t
      ((descend (memsetTraverser fill) c h lo s addr t).1.map fun _ => ())
      (descend (memsetTraverser fill) c h lo s addr t).2 := by
  induction h generalizing lo addr s t with
  | zero =>
      by_cases haddr : lo ≤ addr ∧ addr < lo + c
      · exact memsetWalk_chunk haddr s t
      · rw [← span_zero c] at haddr
        rw [descend_outside haddr]
        exact .outside haddr
  | succ h ih =>
      by_cases haddr : lo ≤ addr ∧ addr < lo + span c (h + 1)
      swap
      · rw [descend_outside haddr]
        exact .outside haddr
      have hempty := memsetTraverser_checkEmpty fill addr t
      by_cases hlazy : t.force.1.state ≠ .unknown ∧ lo ≤ s.dest ∧
          ptrAdd s.dest s.size ≤ lo + span c (h + 1)
      · rw [descend_done haddr hempty (memset_handlePath_lazy hlazy)]
        exact .lazy haddr hlazy.1 hlazy.2.1 hlazy.2.2
      by_cases hsplit : addr < lo + span c h ∧ lo + span c h < ptrAdd addr s.size
      · have hwalk := ih lo addr ⟨s.dest, lo + span c h - addr⟩ (t.force.2.1.derive t.force.1)
        have hwalk' := ih (lo + span c h) (lo + span c h)
          ⟨ptrAdd s.dest (lo + span c h - addr), s.size - (lo + span c h - addr)⟩
          (t.force.2.2.derive t.force.1)
        cases hleft : descend (memsetTraverser fill) c h lo ⟨s.dest, lo + span c h - addr⟩ addr
          (t.force.2.1.derive t.force.1) with
        | mk result left' =>
            rw [hleft] at hwalk
            cases result with
            | error e =>
                rw [descend_done haddr hempty (memset_handlePath_splitFail hlazy hsplit hleft)]
                exact .splitFail haddr hsplit.1 hsplit.2 hwalk
            | ok v =>
                rw [descend_done haddr hempty (memset_handlePath_split hlazy hsplit hleft rfl),
                  map_map_unit]
                exact .split haddr hsplit.1 hsplit.2 hwalk hwalk'
      · by_cases hlt : addr < lo + span c h
        · rw [descend_left ⟨haddr.1, hlt⟩ hempty (memset_handlePath_descend hlazy hsplit)]
          exact .left ⟨haddr.1, hlt⟩ (ih _ _ _ _)
        · rw [span_succ] at haddr
          rw [descend_right ⟨by omega, by omega⟩ hempty (memset_handlePath_descend hlazy hsplit)]
          exact .right ⟨by omega, by omega⟩ (ih _ _ _ _)

/-- A memset changes no status. -/
theorem MemsetWalk.status_eq {c h lo addr : ℕ} {fill : UInt8} {s : MemsetState} {t t' : NodePtr}
    {result : Except Fault Unit} (hw : MemsetWalk c fill h lo addr s t result t') :
    t'.force.1.status = t.force.1.status := by
  cases hw <;> rfl

end Borealis
