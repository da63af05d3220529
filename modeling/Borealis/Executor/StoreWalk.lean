import Borealis.Executor.Descend

/-!
# The walk of a store

`StoreWalk` describes a store into a node as a big-step relation: where the walk starts, what is
left to store, and the result and the node pointer at the end.  There is one rule for each way the
walk can go: it is rejected by an allocated node, it ends in a chunk, it is split at a midpoint, or
it goes on into one child.  `storeWalk_descend` shows that the traversal follows the rules, so that
properties of stores are inductions on the relation.
-/

namespace Borealis

open Lib

/-- A store of `s` at `addr` into the node `t` of height `h` at `lo`. -/
inductive StoreWalk (c : ℕ) :
    (h lo addr : ℕ) → StoreState → NodePtr → Except Fault Unit → NodePtr → Prop
  | outside {h lo addr s t} : ¬ (lo ≤ addr ∧ addr < lo + span c h) →
      StoreWalk c h lo addr s t (.error .assertion) t
  | reject {h lo addr s t e} : (lo ≤ addr ∧ addr < lo + span c h) →
      checkAllocation t.force.1 lo addr s = .error e →
      StoreWalk c h lo addr s t (.error e) (.node t.force.1 t.force.2.1 t.force.2.2)
  | tooLong {lo addr s s' t} : (lo ≤ addr ∧ addr < lo + c) →
      checkAllocation t.force.1 lo addr s = .ok s' → ¬ s'.data.length ≤ c →
      StoreWalk c 0 lo addr s t (.error .assertion) (.node t.force.1 t.force.2.1 t.force.2.2)
  | unallocated {lo addr s s' t} : (lo ≤ addr ∧ addr < lo + c) →
      checkAllocation t.force.1 lo addr s = .ok s' → s'.data.length ≤ c → s'.didAlloc = false →
      StoreWalk c 0 lo addr s t (.error (.illegalStore addr))
        (.node { t.force.1 with state := .unknown } t.force.2.1 t.force.2.2)
  | write {lo addr s s' t} : (lo ≤ addr ∧ addr < lo + c) →
      checkAllocation t.force.1 lo addr s = .ok s' → s'.data.length ≤ c → s'.didAlloc = true →
      StoreWalk c 0 lo addr s t (.ok ())
        (.node { t.force.1 with
          state := .unknown
          chunk := some ((t.force.1.chunk.getD Chunk.fresh).memcpy (addr - lo) s'.data) }
          t.force.2.1 t.force.2.2)
  | splitFail {h lo addr s s' t e left'} : (lo ≤ addr ∧ addr < lo + span c (h + 1)) →
      checkAllocation t.force.1 lo addr s = .ok s' →
      addr < lo + span c h → lo + span c h < ptrAdd addr s'.data.length →
      StoreWalk c h lo addr { s' with data := s'.data.take (lo + span c h - addr) }
        (t.force.2.1.derive t.force.1) (.error e) left' →
      StoreWalk c (h + 1) lo addr s t (.error e)
        (.node t.force.1.invalidate left' (t.force.2.2.derive t.force.1))
  | split {h lo addr s s' t result left' right'} : (lo ≤ addr ∧ addr < lo + span c (h + 1)) →
      checkAllocation t.force.1 lo addr s = .ok s' →
      addr < lo + span c h → lo + span c h < ptrAdd addr s'.data.length →
      StoreWalk c h lo addr { s' with data := s'.data.take (lo + span c h - addr) }
        (t.force.2.1.derive t.force.1) (.ok ()) left' →
      StoreWalk c h (lo + span c h) (lo + span c h)
        { s' with data := s'.data.drop (lo + span c h - addr) }
        (t.force.2.2.derive t.force.1) result right' →
      StoreWalk c (h + 1) lo addr s t result (.node t.force.1.invalidate left' right')
  | left {h lo addr s s' t result left'} : (lo ≤ addr ∧ addr < lo + span c h) →
      checkAllocation t.force.1 lo addr s = .ok s' → ¬ lo + span c h < ptrAdd addr s'.data.length →
      StoreWalk c h lo addr s' (t.force.2.1.derive t.force.1) result left' →
      StoreWalk c (h + 1) lo addr s t result
        (.node t.force.1.invalidate left' (t.force.2.2.derive t.force.1))
  | right {h lo addr s s' t result right'} :
      (lo + span c h ≤ addr ∧ addr < lo + span c h + span c h) →
      checkAllocation t.force.1 lo addr s = .ok s' →
      StoreWalk c h (lo + span c h) addr s' (t.force.2.2.derive t.force.1) result right' →
      StoreWalk c (h + 1) lo addr s t result
        (.node t.force.1.invalidate (t.force.2.1.derive t.force.1) right')

@[simp] theorem storeTraverser_checkEmpty (addr : ℕ) (t : NodePtr) :
    storeTraverser.checkEmpty addr t = .ok () := by
  cases t <;> rfl

theorem checkAllocation_data {n : SegmentNode} {lo addr : ℕ} {s s' : StoreState}
    (h : checkAllocation n lo addr s = .ok s') : s'.data = s.data := by
  unfold checkAllocation at h
  split at h
  · split at h
    · cases h
    · split at h
      · cases h
      · obtain rfl := Except.ok.inj h
        rfl
  · obtain rfl := Except.ok.inj h
    rfl

/-- The traversal of `storeTraverser` follows the rules in a chunk. -/
theorem storeWalk_chunk {c lo addr : ℕ} (haddr : lo ≤ addr ∧ addr < lo + c) (s : StoreState)
    (t : NodePtr) :
    StoreWalk c 0 lo addr s t ((descend storeTraverser c 0 lo s addr t).1.map fun _ => ())
      (descend storeTraverser c 0 lo s addr t).2 := by
  rw [descend_chunk haddr (storeTraverser_checkEmpty addr t)]
  simp only [storeTraverser]
  cases hcheck : checkAllocation t.force.1 lo addr s with
  | error e => exact .reject (by rwa [span_zero]) hcheck
  | ok s' =>
      by_cases hlen : s'.data.length ≤ c
      · cases hdid : s'.didAlloc with
        | false =>
            simp only [hlen, hdid, not_true, not_false_iff, if_false, if_true, Bool.false_eq_true]
            exact .unallocated haddr hcheck hlen hdid
        | true =>
            simp only [hlen, hdid, not_true, if_false]
            exact .write haddr hcheck hlen hdid
      · simp only [hlen, not_false_iff, if_true]
        exact .tooLong haddr hcheck hlen

section Path

variable {c h lo addr : ℕ} {s s' : StoreState} {n : SegmentNode} {l r : NodePtr}
  {visitLeft visitRight : Visit StoreState}

theorem store_handlePath_reject {e : Fault} (hcheck : checkAllocation n lo addr s = .error e) :
    storeTraverser.handlePath visitLeft visitRight lo (lo + span c (h + 1)) n l r addr s =
      .done (.error e) (.node n l r) := by
  simp only [storeTraverser, hcheck]

theorem store_handlePath_descend (hcheck : checkAllocation n lo addr s = .ok s')
    (hsplit : ¬ (addr < lo + span c h ∧ lo + span c h < ptrAdd addr s'.data.length)) :
    storeTraverser.handlePath visitLeft visitRight lo (lo + span c (h + 1)) n l r addr s =
      .descend s' := by
  simp only [storeTraverser, hcheck, middle_span, hsplit, if_false]

theorem store_handlePath_splitFail {e : Fault} {left' : NodePtr}
    (hcheck : checkAllocation n lo addr s = .ok s')
    (hsplit : addr < lo + span c h ∧ lo + span c h < ptrAdd addr s'.data.length)
    (hleft : visitLeft { s' with data := s'.data.take (lo + span c h - addr) } addr (l.derive n) =
      (.error e, left')) :
    storeTraverser.handlePath visitLeft visitRight lo (lo + span c (h + 1)) n l r addr s =
      .done (.error e) (.node n.invalidate left' (r.derive n)) := by
  simp only [storeTraverser, hcheck, middle_span, hsplit, and_self, if_true,
    forceChildrenAndDeriveState, hleft]

theorem store_handlePath_split {v : StoreState} {left' right' : NodePtr}
    {result : Except Fault StoreState} (hcheck : checkAllocation n lo addr s = .ok s')
    (hsplit : addr < lo + span c h ∧ lo + span c h < ptrAdd addr s'.data.length)
    (hleft : visitLeft { s' with data := s'.data.take (lo + span c h - addr) } addr (l.derive n) =
      (.ok v, left'))
    (hright : visitRight { s' with data := s'.data.drop (lo + span c h - addr) } (lo + span c h)
      (r.derive n) = (result, right')) :
    storeTraverser.handlePath visitLeft visitRight lo (lo + span c (h + 1)) n l r addr s =
      .done (result.map fun _ => s') (.node n.invalidate left' right') := by
  cases result <;>
    simp only [storeTraverser, hcheck, middle_span, hsplit, and_self, if_true,
      forceChildrenAndDeriveState, hleft, hright, Except.map]

end Path

/-- The traversal of `storeTraverser` follows the rules. -/
theorem storeWalk_descend (c h lo addr : ℕ) (s : StoreState) (t : NodePtr) :
    StoreWalk c h lo addr s t ((descend storeTraverser c h lo s addr t).1.map fun _ => ())
      (descend storeTraverser c h lo s addr t).2 := by
  induction h generalizing lo addr s t with
  | zero =>
      by_cases haddr : lo ≤ addr ∧ addr < lo + c
      · exact storeWalk_chunk haddr s t
      · rw [← span_zero c] at haddr
        rw [descend_outside haddr]
        exact .outside haddr
  | succ h ih =>
      by_cases haddr : lo ≤ addr ∧ addr < lo + span c (h + 1)
      swap
      · rw [descend_outside haddr]
        exact .outside haddr
      have hempty := storeTraverser_checkEmpty addr t
      cases hcheck : checkAllocation t.force.1 lo addr s with
      | error e =>
          rw [descend_done haddr hempty (store_handlePath_reject hcheck)]
          exact .reject haddr hcheck
      | ok s' =>
          by_cases hsplit : addr < lo + span c h ∧ lo + span c h < ptrAdd addr s'.data.length
          · have hwalk := ih lo addr { s' with data := s'.data.take (lo + span c h - addr) }
              (t.force.2.1.derive t.force.1)
            have hwalk' := ih (lo + span c h) (lo + span c h)
              { s' with data := s'.data.drop (lo + span c h - addr) }
              (t.force.2.2.derive t.force.1)
            cases hleft : descend storeTraverser c h lo
              { s' with data := s'.data.take (lo + span c h - addr) } addr
              (t.force.2.1.derive t.force.1) with
            | mk result left' =>
                rw [hleft] at hwalk
                cases result with
                | error e =>
                    rw [descend_done haddr hempty (store_handlePath_splitFail hcheck hsplit hleft)]
                    exact .splitFail haddr hcheck hsplit.1 hsplit.2 hwalk
                | ok v =>
                    rw [descend_done haddr hempty (store_handlePath_split hcheck hsplit hleft rfl),
                      map_map_unit]
                    exact .split haddr hcheck hsplit.1 hsplit.2 hwalk hwalk'
          · by_cases hlt : addr < lo + span c h
            · rw [descend_left ⟨haddr.1, hlt⟩ hempty (store_handlePath_descend hcheck hsplit)]
              exact .left ⟨haddr.1, hlt⟩ hcheck (fun h' => hsplit ⟨hlt, h'⟩) (ih _ _ _ _)
            · rw [span_succ] at haddr
              rw [descend_right ⟨by omega, by omega⟩ hempty (store_handlePath_descend hcheck hsplit)]
              exact .right ⟨by omega, by omega⟩ hcheck (ih _ _ _ _)

/-- A store changes no status. -/
theorem StoreWalk.status_eq {c h lo addr : ℕ} {s : StoreState} {t t' : NodePtr}
    {result : Except Fault Unit} (hw : StoreWalk c h lo addr s t result t') :
    t'.force.1.status = t.force.1.status := by
  cases hw <;> rfl

end Borealis
