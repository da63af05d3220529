import Mathlib.Data.List.Basic
import Mathlib.Data.List.Lex

/-!
# Search with a record of what was found

A queue hands out its front entry.  An entry that is skipped or was found before is dropped; any
other is recorded, and what comes next to it is put at the end of the queue.  Over finitely many
entries the queue runs dry, and the record then holds what the start leads to (`mem_search_iff`),
whatever the order of the queue.
-/

namespace Borealis.Lib

variable {α : Type} [DecidableEq α]

/-- A new record leaves fewer entries to be found. -/
theorem length_filter_notMem_cons_lt {all keep : List α} {a : α} (ha : a ∈ all)
    (hkeep : a ∉ keep) :
    (all.filter (· ∉ a :: keep)).length < (all.filter (· ∉ keep)).length := by
  have hfilter : all.filter (· ∉ a :: keep) = (all.filter (· ∉ keep)).filter (· ≠ a) := by
    rw [List.filter_filter]
    refine List.filter_congr fun b _ => ?_
    rw [← Bool.decide_and, decide_eq_decide, List.mem_cons, not_or]
  rw [hfilter]
  refine List.length_filter_lt_length_iff_exists.2 ⟨a, List.mem_filter.2 ⟨ha, ?_⟩, ?_⟩
  · exact decide_eq_true hkeep
  · exact fun h => of_decide_eq_true h rfl

/-- Work through a queue; `keep` is the record. -/
def search (all : List α) (hall : ∀ a, a ∈ all) (next : α → List α) (skip : α → Bool) :
    List α → List α → List α
  | keep, [] => keep
  | keep, a :: queue =>
    if skip a then search all hall next skip keep queue
    else if a ∈ keep then search all hall next skip keep queue
    else search all hall next skip (a :: keep) (queue ++ next a)
termination_by keep queue => ((all.filter (· ∉ keep)).length, queue.length)
decreasing_by
  · exact Prod.Lex.right _ (Nat.lt_succ_self _)
  · exact Prod.Lex.right _ (Nat.lt_succ_self _)
  · next hkeep => exact Prod.Lex.left _ _ (length_filter_notMem_cons_lt (hall a) hkeep)

/-- What a start leads to without what is skipped. -/
inductive Found (next : α → List α) (skip : α → Bool) (start : List α) : α → Prop
  | start {a : α} : a ∈ start → skip a = false → Found next skip start a
  | next {a b : α} : Found next skip start a → b ∈ next a → skip b = false →
      Found next skip start b

variable {all : List α} {hall : ∀ a, a ∈ all} {next : α → List α} {skip : α → Bool}

/-- The record keeps what it holds and takes up what the queue holds. -/
theorem subset_search (keep queue : List α) :
    (∀ a ∈ keep, a ∈ search all hall next skip keep queue) ∧
      ∀ a ∈ queue, skip a = false → a ∈ search all hall next skip keep queue := by
  fun_induction search all hall next skip keep queue with
  | case1 keep => exact ⟨fun _ ha => ha, fun _ ha => absurd ha List.not_mem_nil⟩
  | case2 keep a queue hskip ih =>
      refine ⟨ih.1, fun b hb hbskip => ?_⟩
      rcases List.mem_cons.1 hb with rfl | hb
      · exact absurd hskip (Bool.eq_false_iff.1 hbskip)
      · exact ih.2 b hb hbskip
  | case3 keep a queue _ hkeep ih =>
      refine ⟨ih.1, fun b hb hbskip => ?_⟩
      rcases List.mem_cons.1 hb with rfl | hb
      · exact ih.1 b hkeep
      · exact ih.2 b hb hbskip
  | case4 keep a queue _ _ ih =>
      refine ⟨fun b hb => ih.1 b (List.mem_cons_of_mem _ hb), fun b hb hbskip => ?_⟩
      rcases List.mem_cons.1 hb with rfl | hb
      · exact ih.1 b List.mem_cons_self
      · exact ih.2 b (List.mem_append_left _ hb) hbskip

/-- Nothing is recorded that the start does not lead to. -/
theorem found_of_mem_search {start : List α} (keep queue : List α)
    (hkeep : ∀ a ∈ keep, Found next skip start a)
    (hqueue : ∀ a ∈ queue, skip a = false → Found next skip start a) :
    ∀ a ∈ search all hall next skip keep queue, Found next skip start a := by
  fun_induction search all hall next skip keep queue with
  | case1 keep => exact hkeep
  | case2 keep a queue _ ih | case3 keep a queue _ _ ih =>
      exact ih hkeep fun b hb => hqueue b (List.mem_cons_of_mem _ hb)
  | case4 keep a queue hskip _ ih =>
      have ha : Found next skip start a :=
        hqueue a List.mem_cons_self (Bool.eq_false_iff.2 hskip)
      refine ih ?_ ?_
      · intro b hb
        rcases List.mem_cons.1 hb with rfl | hb
        · exact ha
        · exact hkeep b hb
      · intro b hb hbskip
        rcases List.mem_append.1 hb with hb | hb
        · exact hqueue b (List.mem_cons_of_mem _ hb) hbskip
        · exact Found.next ha hb hbskip

/-- When what comes next to the record is recorded or waiting, it ends up in the record. -/
theorem search_closed (keep queue : List α)
    (hclosed : ∀ a ∈ keep, ∀ b ∈ next a, skip b = false → b ∈ keep ∨ b ∈ queue) :
    ∀ a ∈ search all hall next skip keep queue, ∀ b ∈ next a, skip b = false →
      b ∈ search all hall next skip keep queue := by
  fun_induction search all hall next skip keep queue with
  | case1 keep =>
      exact fun a ha b hb hbskip => (hclosed a ha b hb hbskip).resolve_right List.not_mem_nil
  | case2 keep c queue hskip ih =>
      refine ih fun a ha b hb hbskip => (hclosed a ha b hb hbskip).imp_right fun hqueue => ?_
      rcases List.mem_cons.1 hqueue with rfl | hqueue
      · exact absurd hskip (Bool.eq_false_iff.1 hbskip)
      · exact hqueue
  | case3 keep c queue _ hc ih =>
      refine ih fun a ha b hb hbskip => ?_
      rcases hclosed a ha b hb hbskip with hkeep | hqueue
      · exact Or.inl hkeep
      · rcases List.mem_cons.1 hqueue with rfl | hqueue
        · exact Or.inl hc
        · exact Or.inr hqueue
  | case4 keep c queue _ _ ih =>
      refine ih fun a ha b hb hbskip => ?_
      rcases List.mem_cons.1 ha with rfl | ha
      · exact Or.inr (List.mem_append_right _ hb)
      · rcases hclosed a ha b hb hbskip with hkeep | hqueue
        · exact Or.inl (List.mem_cons_of_mem _ hkeep)
        · rcases List.mem_cons.1 hqueue with rfl | hqueue
          · exact Or.inl List.mem_cons_self
          · exact Or.inr (List.mem_append_left _ hqueue)

/-- **A search finds exactly what its start leads to.** -/
theorem mem_search_iff {start : List α} {a : α} :
    a ∈ search all hall next skip [] start ↔ Found next skip start a := by
  constructor
  · refine found_of_mem_search [] start (fun _ h => absurd h List.not_mem_nil) ?_ a
    exact fun b hb hbskip => Found.start hb hbskip
  · intro hfound
    have hclosed := @search_closed α _ all hall next skip [] start
      fun _ h => absurd h List.not_mem_nil
    induction hfound with
    | start hmem hskip => exact (subset_search [] start).2 _ hmem hskip
    | next _ hmem hskip ih => exact hclosed _ ih _ hmem hskip

end Borealis.Lib
