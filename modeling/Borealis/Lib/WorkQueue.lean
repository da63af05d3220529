import Mathlib.Logic.Relation
import Mathlib.Algebra.Order.Ring.Nat

/-!
# Work queues

A work queue hands out its front entry; handling it changes a record and puts further entries, the
children of the one handled, at the end of the queue.  The children depend on the entry alone.

When no entry has an infinite line of descendants the queue runs dry, and what was handled by then
is exactly what descends from the entries the queue started with (`drain_spec`).
-/

namespace Borealis.Lib

variable {α R : Type}

/-- Handle the entries of a queue until it is empty. -/
def drain (handle : R → α → R × List α) : Nat → List α → R → Option R
  | _, [], r => some r
  | 0, _ :: _, _ => none
  | fuel + 1, a :: queue, r => drain handle fuel (queue ++ (handle r a).2) (handle r a).1

/-- `b` is one of the entries that handling `a` adds. -/
def Child (children : α → List α) (a b : α) : Prop := b ∈ children a

/-- `b` descends from `a`. -/
def Descends (children : α → List α) : α → α → Prop := Relation.ReflTransGen (Child children)

/-- An entry can be given a weight that exceeds that of its children together. -/
theorem exists_weight {children : α → List α}
    (hwf : WellFounded fun b a => Child children a b) :
    ∃ weight : α → Nat, ∀ a, ((children a).map weight).sum < weight a := by
  let weight : α → Nat := hwf.fix fun a rec =>
    ((children a).attach.map fun b => rec b.1 b.2).sum + 1
  refine ⟨weight, fun a => ?_⟩
  have hfix : weight a = ((children a).attach.map fun b => weight b.1).sum + 1 :=
    hwf.fix_eq _ a
  rw [hfix, List.attach_map_val]
  exact Nat.lt_succ_self _

/-- Who descends from an entry is the entry or descends from a child. -/
theorem descends_iff {children : α → List α} {a b : α} :
    Descends children a b ↔ b = a ∨ ∃ c ∈ children a, Descends children c b := by
  constructor
  · intro h
    rcases Relation.ReflTransGen.cases_head h with heq | ⟨c, hc, hcb⟩
    · exact Or.inl heq.symm
    · exact Or.inr ⟨c, hc, hcb⟩
  · rintro (rfl | ⟨c, hc, hcb⟩)
    · exact Relation.ReflTransGen.refl
    · exact Relation.ReflTransGen.head hc hcb

/-- **A work queue runs dry**, and has then handled the descendants of its entries. -/
theorem drain_spec {handle : R → α → R × List α} {children : α → List α}
    (hchildren : ∀ r a, (handle r a).2 = children a)
    (hwf : WellFounded fun b a => Child children a b) (queue : List α) (r : R) :
    ∃ (n : Nat) (handled : List α),
      (∀ fuel ≥ n, drain handle fuel queue r =
        some (handled.foldl (fun r a => (handle r a).1) r)) ∧
      ∀ b, b ∈ handled ↔ ∃ a ∈ queue, Descends children a b := by
  obtain ⟨weight, hweight⟩ := exists_weight hwf
  -- the weight of the queue is enough fuel, and bounds the induction
  suffices hmain : ∀ n queue r, (queue.map weight).sum ≤ n → ∃ handled : List α,
      (∀ fuel ≥ n, drain handle fuel queue r =
        some (handled.foldl (fun r a => (handle r a).1) r)) ∧
      ∀ b, b ∈ handled ↔ ∃ a ∈ queue, Descends children a b by
    exact ⟨_, hmain _ queue r (Nat.le_refl _)⟩
  intro n
  induction n with
  | zero =>
      intro queue r hn
      cases queue with
      | nil => exact ⟨[], fun fuel _ => by cases fuel <;> rfl, by simp⟩
      | cons a queue =>
          have hpos := Nat.zero_lt_of_lt (hweight a)
          rw [List.map_cons, List.sum_cons] at hn
          omega
  | succ n ih =>
      intro queue r hn
      cases queue with
      | nil => exact ⟨[], fun fuel _ => by cases fuel <;> rfl, by simp⟩
      | cons a queue =>
          have hlt := hweight a
          rw [List.map_cons, List.sum_cons] at hn
          obtain ⟨handled, hrun, hmem⟩ := ih (queue ++ children a) (handle r a).1 (by
            rw [List.map_append, List.sum_append]
            omega)
          refine ⟨a :: handled, fun fuel hfuel => ?_, fun b => ?_⟩
          · obtain ⟨fuel, rfl⟩ := Nat.exists_eq_add_of_le' (Nat.le_trans (Nat.succ_pos n) hfuel)
            rw [drain, hchildren, hrun fuel (Nat.le_of_succ_le_succ hfuel)]
            rfl
          · rw [List.mem_cons, hmem]
            simp only [List.mem_append, List.mem_cons, or_and_right, exists_or, exists_eq_left]
            rw [descends_iff (a := a), or_assoc, or_comm (a := ∃ x, x ∈ queue ∧ _)]

end Borealis.Lib
