import Borealis.PredicateStateAnalysis.Function
import Mathlib.Data.List.Perm.Subperm

/-!
# The topological sorter

`TopologicalSorter` of `Util/graph.h` visits the predecessors of a block before the block itself.
A block is grey while its predecessors are visited and black once it is ordered; running into a
grey block means that there is a cycle.

The recursion is as deep as there are grey blocks.  In an acyclic graph they are all different, so
the number of blocks is enough fuel (`visit_spec`).
-/

namespace Borealis

namespace TopologicalSorter

variable (F : Function)

/-- `TopologicalSorter::visit`.  `grey` are the blocks that are being visited, and the black blocks
are those in `ordered`. -/
def visit : Nat → List Nat → List Nat → Nat → Option (List Nat)
  | 0, _, _, _ => none
  | fuel + 1, grey, ordered, BB =>
    if BB ∈ grey then none
    else if BB ∈ ordered then some ordered
    else
      ((F.predecessors BB).foldlM (visit fuel (BB :: grey)) ordered).map fun ordered =>
        ordered ++ [BB]

/-- `TopologicalSorter::doit`. -/
def doit : Option (List Nat) :=
  (List.range F.blocks.length).foldlM (visit F F.blocks.length []) []

/-- Blocks without repetition, each behind all its predecessors. -/
structure Sorted (l : List Nat) : Prop where
  lt : ∀ b ∈ l, b < F.blocks.length
  nodup : l.Nodup
  predecessors : ∀ xs b ys, l = xs ++ b :: ys → ∀ a, F.Edge a b → a ∈ xs

variable {F}

theorem Sorted.nil : Sorted F [] :=
  ⟨fun _ h => absurd h List.not_mem_nil, List.nodup_nil, fun xs b ys h =>
    absurd h.symm (List.append_ne_nil_of_right_ne_nil xs (List.cons_ne_nil b ys))⟩

/-- What stands before a block of `l` still does with `b` behind, and `b` may lie behind all. -/
theorem before_append {R : Nat → Nat → Prop} {l : List Nat} {b : Nat}
    (h : ∀ xs c ys, l = xs ++ c :: ys → ∀ a, R a c → a ∈ xs) (hb : ∀ a, R a b → a ∈ l)
    (xs : List Nat) (c : Nat) (ys : List Nat) (heq : l ++ [b] = xs ++ c :: ys) (a : Nat)
    (hedge : R a c) : a ∈ xs := by
  rcases List.eq_nil_or_concat ys with rfl | ⟨ys, d, rfl⟩
  · obtain ⟨rfl, hcb⟩ := List.append_inj' heq rfl
    exact hb a ((List.cons.inj hcb).1 ▸ hedge)
  · rw [List.concat_eq_append, ← List.cons_append, ← List.append_assoc] at heq
    exact h xs c ys (List.append_inj' heq rfl).1 a hedge

theorem Sorted.append {l : List Nat} {b : Nat} (h : Sorted F l) (hlt : b < F.blocks.length)
    (hb : b ∉ l) (hpred : ∀ a, F.Edge a b → a ∈ l) : Sorted F (l ++ [b]) := by
  refine ⟨fun c hc => ?_, ?_, before_append h.predecessors hpred⟩
  · rcases List.mem_append.mp hc with hc | hc
    · exact h.lt c hc
    · exact List.mem_singleton.mp hc ▸ hlt
  · rw [List.nodup_append]
    refine ⟨h.nodup, List.nodup_singleton b, fun c hc d hd => ?_⟩
    rw [List.mem_singleton.mp hd]
    rintro rfl
    exact hb hc

/-- What one visit does: the order grows and stays sorted, the block is in it, and what is new
does not come after the block. -/
structure Visited (rank : Nat → Nat) (ordered ordered' : List Nat) (BB : Nat) : Prop where
  sorted : Sorted F ordered'
  subset : ordered ⊆ ordered'
  mem : BB ∈ ordered'
  rank_le : ∀ c ∈ ordered', c ∈ ordered ∨ rank c ≤ rank BB

/-- Visits one after the other. -/
theorem foldlM_spec {rank : Nat → Nat} {step : List Nat → Nat → Option (List Nat)} {l : List Nat}
    (hstep : ∀ ordered, Sorted F ordered → ∀ b ∈ l,
      ∃ ordered', step ordered b = some ordered' ∧ Visited (F := F) rank ordered ordered' b)
    {ordered : List Nat} (hsorted : Sorted F ordered) :
    ∃ ordered', l.foldlM step ordered = some ordered' ∧ Sorted F ordered' ∧
      ordered ⊆ ordered' ∧ l ⊆ ordered' ∧
      ∀ c ∈ ordered', c ∈ ordered ∨ ∃ b ∈ l, rank c ≤ rank b := by
  induction l generalizing ordered with
  | nil => exact ⟨ordered, rfl, hsorted, fun _ h => h, List.nil_subset _, fun c hc => Or.inl hc⟩
  | cons b l ih =>
      obtain ⟨mid, hmid, hvisited⟩ := hstep ordered hsorted b List.mem_cons_self
      obtain ⟨ordered', hrun, hsorted', hsub, hmem, hrank⟩ :=
        ih (fun o ho c hc => hstep o ho c (List.mem_cons_of_mem b hc)) hvisited.sorted
      refine ⟨ordered', ?_, hsorted', fun c hc => hsub (hvisited.subset hc), ?_, fun c hc => ?_⟩
      · rw [List.foldlM_cons, hmid]
        exact hrun
      · exact List.cons_subset.mpr ⟨hsub hvisited.mem, hmem⟩
      · rcases hrank c hc with hc | ⟨d, hd, hle⟩
        · rcases hvisited.rank_le c hc with hc | hle
          · exact Or.inl hc
          · exact Or.inr ⟨b, List.mem_cons_self, hle⟩
        · exact Or.inr ⟨d, List.mem_cons_of_mem b hd, hle⟩

/-- **A visit succeeds when its fuel covers the blocks that are not grey.** -/
theorem visit_spec {rank : Nat → Nat} (hrank : ∀ a b, F.Edge a b → rank a < rank b)
    {fuel : Nat} {grey ordered : List Nat} {BB : Nat} (hBB : BB < F.blocks.length)
    (hgrey : ∀ g ∈ grey, g < F.blocks.length ∧ rank BB < rank g) (hnodup : grey.Nodup)
    (hfuel : F.blocks.length ≤ fuel + grey.length) (hsorted : Sorted F ordered) :
    ∃ ordered', visit F fuel grey ordered BB = some ordered' ∧
      Visited (F := F) rank ordered ordered' BB := by
  induction fuel generalizing grey ordered BB with
  | zero =>
      -- all blocks would be grey, and this one is not
      have hnot : BB ∉ grey := fun h => absurd (hgrey BB h).2 (Nat.lt_irrefl _)
      have hsub : BB :: grey ⊆ List.range F.blocks.length :=
        List.cons_subset.mpr ⟨List.mem_range.mpr hBB, fun g hg => List.mem_range.mpr (hgrey g hg).1⟩
      have hle := ((List.nodup_cons.mpr ⟨hnot, hnodup⟩).subperm hsub).length_le
      rw [List.length_cons, List.length_range] at hle
      omega
  | succ fuel ih =>
      have hnot : BB ∉ grey := fun h => absurd (hgrey BB h).2 (Nat.lt_irrefl _)
      rw [visit, if_neg hnot]
      by_cases hblack : BB ∈ ordered
      · rw [if_pos hblack]
        exact ⟨ordered, rfl, hsorted, fun _ h => h, hblack, fun c hc => Or.inl hc⟩
      · rw [if_neg hblack]
        have hstep : ∀ o, Sorted F o → ∀ a ∈ F.predecessors BB,
            ∃ o', visit F fuel (BB :: grey) o a = some o' ∧ Visited (F := F) rank o o' a := by
          intro o ho a ha
          have hedge := Function.mem_predecessors.mp ha
          refine ih (Function.edge_lt hedge).1 (fun g hg => ?_)
            (List.nodup_cons.mpr ⟨hnot, hnodup⟩) ?_ ho
          · rcases List.mem_cons.mp hg with rfl | hg
            · exact ⟨hBB, hrank a g hedge⟩
            · exact ⟨(hgrey g hg).1, (hrank a BB hedge).trans (hgrey g hg).2⟩
          · rw [List.length_cons]
            omega
        obtain ⟨ordered', hrun, hsorted', hsub, hpreds, hranks⟩ := foldlM_spec hstep hsorted
        have hearlier : ∀ c ∈ ordered', c ∈ ordered ∨ rank c < rank BB := by
          intro c hc
          rcases hranks c hc with hc | ⟨a, ha, hle⟩
          · exact Or.inl hc
          · exact Or.inr (hle.trans_lt (hrank a BB (Function.mem_predecessors.mp ha)))
        have hnew : BB ∉ ordered' := fun h =>
          (hearlier BB h).elim hblack fun hlt => absurd hlt (Nat.lt_irrefl _)
        refine ⟨ordered' ++ [BB], by rw [hrun, Option.map_some], ?_, ?_, ?_, fun c hc => ?_⟩
        · exact hsorted'.append hBB hnew fun a ha => hpreds (Function.mem_predecessors.mpr ha)
        · exact fun c hc => List.mem_append_left _ (hsub hc)
        · exact List.mem_append_right _ List.mem_cons_self
        · rcases List.mem_append.mp hc with hc | hc
          · exact (hearlier c hc).imp_right Nat.le_of_lt
          · exact Or.inr (by rw [List.mem_singleton.mp hc])

/-- **Every block gets its place in the order.** -/
theorem doit_spec (F : Function) :
    ∃ TO, doit F = some TO ∧ Sorted F TO ∧ ∀ b < F.blocks.length, b ∈ TO := by
  obtain ⟨rank, hrank⟩ := F.acyclic
  have hstep : ∀ ordered, Sorted F ordered → ∀ b ∈ List.range F.blocks.length,
      ∃ ordered', visit F F.blocks.length [] ordered b = some ordered' ∧
        Visited (F := F) rank ordered ordered' b := by
    intro ordered hsorted b hb
    exact visit_spec hrank (List.mem_range.mp hb) (fun g hg => absurd hg List.not_mem_nil)
      List.nodup_nil (Nat.le_add_right _ _) hsorted
  obtain ⟨TO, hrun, hsorted, -, hmem, -⟩ := foldlM_spec hstep Sorted.nil
  exact ⟨TO, hrun, hsorted, fun b hb => hmem (List.mem_range.mpr hb)⟩

end TopologicalSorter

end Borealis
