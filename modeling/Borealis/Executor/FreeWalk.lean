import Borealis.Executor.Descend

/-!
# The walk of a release

`FreeWalk` describes `freeTraverser` as a big-step relation, in the manner of `StoreWalk`.  The walk
changes nothing until it finds the node to release; in a chunk that is not that node it ends
without an error.
-/

namespace Borealis

open Lib

/-- A release of the block of status `st` at `addr` in the node `t` of height `h` at `lo`. -/
inductive FreeWalk (c : ℕ) (st : MemoryStatus) (addr : ℕ) :
    (h lo : ℕ) → NodePtr → Except Fault Unit → NodePtr → Prop
  | outside {h lo t} : ¬ (lo ≤ addr ∧ addr < lo + span c h) →
      FreeWalk c st addr h lo t (.error .assertion) t
  | missing {h lo} : (lo ≤ addr ∧ addr < lo + span c h) →
      FreeWalk c st addr h lo .null (.error (.illegalFree addr)) .null
  | hit {h n l r} : n.status = st → FreeWalk c st addr h addr (.node n l r) (.ok ()) .null
  | miss {lo n l r} : (lo ≤ addr ∧ addr < lo + c) → ¬ (lo = addr ∧ n.status = st) →
      FreeWalk c st addr 0 lo (.node n l r) (.ok ()) (.node n l r)
  | left {h lo n l r result l'} : (lo ≤ addr ∧ addr < lo + span c h) →
      ¬ (lo = addr ∧ n.status = st) → FreeWalk c st addr h lo l result l' →
      FreeWalk c st addr (h + 1) lo (.node n l r) result (.node n l' r)
  | right {h lo n l r result r'} :
      (lo + span c h ≤ addr ∧ addr < lo + span c h + span c h) →
      ¬ (lo = addr ∧ n.status = st) → FreeWalk c st addr h (lo + span c h) r result r' →
      FreeWalk c st addr (h + 1) lo (.node n l r) result (.node n l r')

/-- The traversal of `freeTraverser` follows the rules. -/
theorem freeWalk_descend (c : ℕ) (st : MemoryStatus) (addr h lo : ℕ) (t : NodePtr) :
    FreeWalk c st addr h lo t (descend (freeTraverser st) c h lo () addr t).1
      (descend (freeTraverser st) c h lo () addr t).2 := by
  by_cases haddr : lo ≤ addr ∧ addr < lo + span c h
  swap
  · rw [descend_outside haddr]
    exact .outside haddr
  induction h generalizing lo t with
  | zero =>
      cases t with
      | null =>
          rw [descend_empty haddr (e := .illegalFree addr) rfl]
          exact .missing haddr
      | node n l r =>
          rw [span_zero] at haddr
          rw [descend_chunk haddr rfl]
          by_cases hhit : lo = addr ∧ n.status = st
          · simp only [freeTraverser, NodePtr.force, hhit, and_self, if_true]
            obtain ⟨rfl, hst⟩ := hhit
            exact .hit hst
          · simp only [freeTraverser, NodePtr.force, hhit, if_false]
            exact .miss haddr hhit
  | succ h ih =>
      cases t with
      | null =>
          rw [descend_empty haddr (e := .illegalFree addr) rfl]
          exact .missing haddr
      | node n l r =>
          by_cases hhit : lo = addr ∧ n.status = st
          · have hpath : ∀ visitLeft visitRight : Visit Unit,
                (freeTraverser st).handlePath visitLeft visitRight lo (lo + span c (h + 1)) n l r
                  addr () = .done (.ok ()) .null := by
              intro _ _
              simp only [freeTraverser, hhit, and_self, if_true]
            rw [descend_done haddr rfl (hpath _ _)]
            obtain ⟨rfl, hst⟩ := hhit
            exact .hit hst
          · have hpath : ∀ visitLeft visitRight : Visit Unit,
                (freeTraverser st).handlePath visitLeft visitRight lo (lo + span c (h + 1)) n l r
                  addr () = .descend () := by
              intro _ _
              simp only [freeTraverser, hhit, if_false]
            rw [span_succ] at haddr
            by_cases hlt : addr < lo + span c h
            · rw [descend_left ⟨haddr.1, hlt⟩ rfl (hpath _ _)]
              exact .left ⟨haddr.1, hlt⟩ hhit (ih lo l ⟨haddr.1, hlt⟩)
            · have hin : lo + span c h ≤ addr ∧ addr < lo + span c h + span c h := by omega
              rw [descend_right hin rfl (hpath _ _)]
              exact .right hin hhit (ih _ r hin)

/-- A release that throws changes nothing. -/
theorem FreeWalk.eq_of_error {c : ℕ} {st : MemoryStatus} {addr h lo : ℕ} {t t' : NodePtr}
    {result : Except Fault Unit} (hw : FreeWalk c st addr h lo t result t') {e : Fault}
    (herror : result = .error e) : t' = t := by
  induction hw with
  | outside => rfl
  | missing => rfl
  | hit => cases herror
  | miss => cases herror
  | left _ _ _ ih => rw [ih herror]
  | right _ _ _ ih => rw [ih herror]

end Borealis
