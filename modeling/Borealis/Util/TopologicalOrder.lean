import Borealis.Util.TopologicalSorter
import Mathlib.Data.Finset.Card
import Mathlib.Logic.Relation

/-!
# The topological sorter on any graph

`TopologicalSorter` of `Util/graph.h` with the colours it keeps in `marks`, on graphs that may have
cycles, self-loops and unreachable blocks.  A failed visit leaves its grey marks behind, and `doit`
clears them first, so a sorter can be used again.

While a block is visited it leads to every grey block along edges of the graph.  A grey block that
is met again therefore closes a cycle, and a black one does not; conversely an order in which every
block comes after its predecessors leaves no room for a cycle.
-/

namespace Borealis

namespace Sorter

open Relation

/-- The blocks of a function in their order, and the predecessors of each, one for every edge. -/
structure Graph where
  size : Nat
  preds : Nat → List Nat
  preds_lt : ∀ b < size, ∀ a ∈ preds b, a < size

/-- An edge of the control flow graph. -/
def Graph.Edge (G : Graph) (a b : Nat) : Prop := a ∈ G.preds b

/-- `Color`; a block without a mark has none. -/
inductive Color where
  | grey
  | black
  deriving DecidableEq

/-- `TopologicalSorter`: its `marks` and its `ordered`. -/
structure State where
  marks : Nat → Option Color
  ordered : List Nat

/-- `clear`. -/
def clear (_ : State) : State := { marks := fun _ => none, ordered := [] }

/-- `markGrey` and `markBlack`. -/
def mark (s : State) (BB : Nat) (color : Color) : State :=
  { s with marks := fun b => if b = BB then some color else s.marks b }

/-- `ordered.push_back`. -/
def push (s : State) (BB : Nat) : State := { s with ordered := s.ordered ++ [BB] }

/-- The loops of `visit` and `doit`: the first block that fails ends them. -/
def visitAll (visit : State → Nat → Option (Bool × State)) :
    List Nat → State → Option (Bool × State)
  | [], s => some (true, s)
  | BB :: blocks, s =>
    (visit s BB).bind fun (ok, s) => if ok then visitAll visit blocks s else some (false, s)

variable (G : Graph)

/-- `TopologicalSorter::visit`. -/
def visit : Nat → State → Nat → Option (Bool × State)
  | 0, _, _ => none
  | fuel + 1, s, BB =>
    if s.marks BB = some .grey then some (false, s)
    else if s.marks BB = some .black then some (true, s)
    else
      (visitAll (visit fuel) (G.preds BB) (mark s BB .grey)).map fun (ok, s) =>
        if ok then (true, push (mark s BB .black) BB) else (false, s)

/-- `TopologicalSorter::doit`, with what it leaves in the sorter. -/
def doit (s : State) : Option (Option (List Nat) × State) :=
  let step := fun s BB =>
    if s.marks BB = some .black then some (true, s) else visit G (G.size + 1) s BB
  (visitAll step (List.range G.size) (clear s)).map fun (ok, s) =>
    (if ok then some s.ordered else none, s)

/-- Some block leads back to itself. -/
def Cyclic : Prop := ∃ b < G.size, TransGen G.Edge b b

/-- Blocks without repetition, each behind all its predecessors. -/
structure Ordered (l : List Nat) : Prop where
  lt : ∀ b ∈ l, b < G.size
  nodup : l.Nodup
  preds : ∀ xs b ys, l = xs ++ b :: ys → ∀ a, G.Edge a b → a ∈ xs

/-- The black blocks are those in the order, and the order is right so far. -/
structure Consistent (s : State) : Prop where
  black : ∀ b, s.marks b = some .black ↔ b ∈ s.ordered
  grey_lt : ∀ b, s.marks b = some .grey → b < G.size
  ordered : Ordered G s.ordered

/-- What a visit that succeeds does. -/
structure Done (s s' : State) (BB : Nat) : Prop where
  consistent : Consistent G s'
  grey : ∀ b, s'.marks b = some .grey ↔ s.marks b = some .grey
  subset : s.ordered ⊆ s'.ordered
  mem : BB ∈ s'.ordered

/-- The blocks that are not grey: the depth that is left. -/
def notGrey (s : State) : Finset Nat :=
  (Finset.range G.size).filter fun b => s.marks b ≠ some .grey

variable {G}

/-! ## Orders -/

theorem Ordered.nil : Ordered G [] :=
  ⟨fun _ h => absurd h List.not_mem_nil, List.nodup_nil, fun xs b ys h =>
    absurd h.symm (List.append_ne_nil_of_right_ne_nil xs (List.cons_ne_nil b ys))⟩

theorem Ordered.append {l : List Nat} {b : Nat} (h : Ordered G l) (hlt : b < G.size)
    (hb : b ∉ l) (hpred : ∀ a, G.Edge a b → a ∈ l) : Ordered G (l ++ [b]) := by
  refine ⟨fun c hc => ?_, ?_, TopologicalSorter.before_append h.preds hpred⟩
  · rcases List.mem_append.mp hc with hc | hc
    · exact h.lt c hc
    · exact List.mem_singleton.mp hc ▸ hlt
  · exact List.nodup_append.mpr ⟨h.nodup, List.nodup_singleton b, fun c hc d hd heq =>
      hb (List.mem_singleton.mp hd ▸ heq ▸ hc)⟩

/-- Along an edge the place in the order grows. -/
theorem Ordered.idxOf_lt {l : List Nat} (h : Ordered G l) {a b : Nat} (hb : b ∈ l)
    (hedge : G.Edge a b) : l.idxOf a < l.idxOf b := by
  obtain ⟨xs, ys, rfl, hfirst⟩ := List.eq_append_cons_of_mem hb
  have ha : a ∈ xs := h.preds xs b ys rfl a hedge
  calc (xs ++ b :: ys).idxOf a
      = xs.idxOf a := List.idxOf_append_of_mem ha
    _ < xs.length := List.idxOf_lt_length_of_mem ha
    _ ≤ xs.length + (b :: ys).idxOf b := Nat.le_add_right _ _
    _ = (xs ++ b :: ys).idxOf b := (List.idxOf_append_of_notMem hfirst).symm

/-- An order of all blocks leaves no cycle. -/
theorem Ordered.not_cyclic {l : List Nat} (h : Ordered G l) (hall : ∀ b < G.size, b ∈ l) :
    ¬ Cyclic G := by
  rintro ⟨b, hb, hcycle⟩
  have hgrow : ∀ {a c}, TransGen G.Edge a c → c < G.size → a < G.size ∧ l.idxOf a < l.idxOf c := by
    intro a c hpath hc
    induction hpath using TransGen.head_induction_on with
    | single hedge => exact ⟨G.preds_lt c hc _ hedge, h.idxOf_lt (hall c hc) hedge⟩
    | head hedge _ ih =>
        exact ⟨G.preds_lt _ ih.1 _ hedge, (h.idxOf_lt (hall _ ih.1) hedge).trans ih.2⟩
  exact Nat.lt_irrefl _ (hgrow hcycle hb).2

/-! ## Visits -/

theorem Consistent.clear (s : State) : Consistent G (clear s) :=
  ⟨fun b => by simp [Sorter.clear], fun b hb => by simp [Sorter.clear] at hb, Ordered.nil⟩

theorem notGrey_mark_card_lt {s : State} {BB : Nat} (hBB : BB < G.size)
    (hgrey : s.marks BB ≠ some .grey) :
    (notGrey G (mark s BB .grey)).card < (notGrey G s).card := by
  refine Finset.card_lt_card ((Finset.ssubset_iff_of_subset fun b hb => ?_).mpr ⟨BB, ?_, ?_⟩)
  · obtain ⟨hrange, hb⟩ := Finset.mem_filter.mp hb
    refine Finset.mem_filter.mpr ⟨hrange, fun hb' => hb ?_⟩
    rcases eq_or_ne b BB with rfl | hne
    · simp [mark]
    · simpa [mark, hne] using hb'
  · simp [notGrey, hBB, hgrey]
  · simp [notGrey, mark]

theorem notGrey_congr {s s' : State} (h : ∀ b, s'.marks b = some .grey ↔ s.marks b = some .grey) :
    notGrey G s' = notGrey G s := by
  simp only [notGrey, ne_eq, h]

/-- Marking a block that has no mark. -/
theorem Consistent.mark_grey {s : State} (h : Consistent G s) {BB : Nat} (hBB : BB < G.size)
    (hblack : s.marks BB ≠ some .black) : Consistent G (mark s BB .grey) := by
  refine ⟨fun b => ?_, fun b hb => ?_, h.ordered⟩
  · rcases eq_or_ne b BB with rfl | hne
    · simpa [mark] using fun hmem => hblack ((h.black b).mpr hmem)
    · simpa [mark, hne] using h.black b
  · rcases eq_or_ne b BB with rfl | hne
    · exact hBB
    · exact h.grey_lt b (by simpa [mark, hne] using hb)

/-- A grey block whose predecessors are ordered becomes black and is ordered itself. -/
theorem Consistent.mark_black {s : State} (h : Consistent G s) {BB : Nat}
    (hgrey : s.marks BB = some .grey) (hpreds : ∀ a ∈ G.preds BB, a ∈ s.ordered) :
    Consistent G (push (mark s BB .black) BB) := by
  have hnew : BB ∉ s.ordered := fun hmem => by
    have hblack := (h.black BB).mpr hmem
    rw [hgrey] at hblack
    cases hblack
  refine ⟨fun b => ?_, fun b hb => ?_, h.ordered.append (h.grey_lt BB hgrey) hnew hpreds⟩
  · rcases eq_or_ne b BB with rfl | hne
    · simp [mark, push]
    · simpa [mark, push, hne] using h.black b
  · rcases eq_or_ne b BB with rfl | hne
    · exact h.grey_lt b hgrey
    · exact h.grey_lt b (by simpa [mark, push, hne] using hb)

/-- Visits one after the other: all succeed, or one of them finds a cycle. -/
theorem visitAll_spec {step : State → Nat → Option (Bool × State)} {blocks : List Nat} {s₀ : State}
    (hstep : ∀ s, Consistent G s → (∀ b, s.marks b = some .grey ↔ s₀.marks b = some .grey) →
      ∀ BB ∈ blocks, ∃ ok s', step s BB = some (ok, s') ∧
        (ok = true → Done G s s' BB) ∧ (ok = false → Cyclic G))
    {s : State} (hs : Consistent G s)
    (hgrey : ∀ b, s.marks b = some .grey ↔ s₀.marks b = some .grey) :
    ∃ ok s', visitAll step blocks s = some (ok, s') ∧ (ok = false → Cyclic G) ∧
      (ok = true → Consistent G s' ∧ (∀ b, s'.marks b = some .grey ↔ s₀.marks b = some .grey) ∧
        s.ordered ⊆ s'.ordered ∧ ∀ b ∈ blocks, b ∈ s'.ordered) := by
  induction blocks generalizing s with
  | nil =>
      refine ⟨true, s, rfl, fun h => (by cases h), fun _ => ⟨hs, hgrey, fun _ h => h, ?_⟩⟩
      exact fun b hb => absurd hb List.not_mem_nil
  | cons BB blocks ih =>
      obtain ⟨ok, s₁, hfirst, hdone, hcycle⟩ := hstep s hs hgrey BB List.mem_cons_self
      cases ok with
      | false =>
          refine ⟨false, s₁, ?_, hcycle, fun h => (by cases h)⟩
          simp [visitAll, hfirst]
      | true =>
          have hd := hdone rfl
          obtain ⟨ok, s', hrest, hcycle', hok⟩ :=
            ih (fun s hs hg b hb => hstep s hs hg b (List.mem_cons_of_mem BB hb)) hd.consistent
              fun b => (hd.grey b).trans (hgrey b)
          refine ⟨ok, s', by simpa [visitAll, hfirst] using hrest, hcycle', fun h => ?_⟩
          obtain ⟨hs', hgrey', hsubset, hall⟩ := hok h
          refine ⟨hs', hgrey', fun b hb => hsubset (hd.subset hb), fun b hb => ?_⟩
          rcases List.mem_cons.mp hb with rfl | hb
          · exact hsubset hd.mem
          · exact hall b hb

/-- **A visit orders its block, or there is a cycle.**  The block leads to every grey one, and the
fuel covers the blocks that are not grey. -/
theorem visit_spec {fuel : Nat} {s : State} {BB : Nat} (hs : Consistent G s) (hBB : BB < G.size)
    (hpath : ∀ b, s.marks b = some .grey → TransGen G.Edge BB b)
    (hfuel : (notGrey G s).card < fuel) :
    ∃ ok s', visit G fuel s BB = some (ok, s') ∧
      (ok = true → Done G s s' BB) ∧ (ok = false → Cyclic G) := by
  induction fuel generalizing s BB with
  | zero => exact absurd hfuel (Nat.not_lt_zero _)
  | succ fuel ih =>
      by_cases hgrey : s.marks BB = some .grey
      · exact ⟨false, s, if_pos hgrey, fun h => (by cases h), fun _ => ⟨BB, hBB, hpath BB hgrey⟩⟩
      by_cases hblack : s.marks BB = some .black
      · refine ⟨true, s, by rw [visit, if_neg hgrey, if_pos hblack], fun _ => ?_,
          fun h => (by cases h)⟩
        exact ⟨hs, fun _ => Iff.rfl, fun _ h => h, (hs.black BB).mp hblack⟩
      have hless := notGrey_mark_card_lt hBB hgrey
      have hmarked := hs.mark_grey hBB hblack
      -- every predecessor leads to what the block leads to, and to the block itself
      have hstep : ∀ s₁, Consistent G s₁ →
          (∀ b, s₁.marks b = some .grey ↔ (mark s BB .grey).marks b = some .grey) →
          ∀ a ∈ G.preds BB, ∃ ok s', visit G fuel s₁ a = some (ok, s') ∧
            (ok = true → Done G s₁ s' a) ∧ (ok = false → Cyclic G) := by
        intro s₁ hs₁ hgrey₁ a ha
        refine ih hs₁ (G.preds_lt BB hBB a ha) (fun b hb => ?_) ?_
        · rcases eq_or_ne b BB with rfl | hne
          · exact TransGen.single ha
          · have hold : s.marks b = some .grey := by simpa [mark, hne] using (hgrey₁ b).mp hb
            exact TransGen.head ha (hpath b hold)
        · rw [notGrey_congr hgrey₁]
          omega
      obtain ⟨ok, s', hrun, hcycle, hok⟩ := visitAll_spec hstep hmarked fun _ => Iff.rfl
      cases ok with
      | false =>
          refine ⟨false, s', ?_, fun h => (by cases h), hcycle⟩
          rw [visit, if_neg hgrey, if_neg hblack, hrun]
          rfl
      | true =>
          obtain ⟨hs', hgrey', hsubset, hpreds⟩ := hok rfl
          have hBBgrey : s'.marks BB = some .grey := (hgrey' BB).mpr (by simp [mark])
          refine ⟨true, push (mark s' BB .black) BB, ?_, fun _ => ?_, fun h => (by cases h)⟩
          · rw [visit, if_neg hgrey, if_neg hblack, hrun]
            rfl
          · refine ⟨hs'.mark_black hBBgrey hpreds, fun b => ?_, fun b hb => ?_, ?_⟩
            · rcases eq_or_ne b BB with rfl | hne
              · simp [mark, push, hgrey]
              · simpa [mark, push, hne] using hgrey' b
            · exact List.mem_append_left _ (hsubset hb)
            · exact List.mem_append_right _ List.mem_cons_self

/-- **The topological sort is exact.**  Whatever the sorter was used for before, the sort of a
finite graph returns: nothing exactly if the graph has a cycle, and otherwise each block of the
function once, behind all its predecessors. -/
theorem doit_exact (G : Graph) (s : State) :
    ∃ result s', doit G s = some (result, s') ∧ (result = none ↔ Cyclic G) ∧
      ∀ l ∈ result, l.Nodup ∧ (∀ b, b ∈ l ↔ b < G.size) ∧
        ∀ xs b ys, l = xs ++ b :: ys → ∀ a ∈ G.preds b, a ∈ xs := by
  have hclear : ∀ b, (clear s).marks b ≠ some .grey := fun b => by simp [clear]
  have hstep : ∀ s₁, Consistent G s₁ →
      (∀ b, s₁.marks b = some .grey ↔ (clear s).marks b = some .grey) →
      ∀ BB ∈ List.range G.size, ∃ ok s',
        (if s₁.marks BB = some .black then some (true, s₁) else visit G (G.size + 1) s₁ BB) =
          some (ok, s') ∧ (ok = true → Done G s₁ s' BB) ∧ (ok = false → Cyclic G) := by
    intro s₁ hs₁ hgrey₁ BB hBB
    by_cases hblack : s₁.marks BB = some .black
    · refine ⟨true, s₁, if_pos hblack, fun _ => ?_, fun h => (by cases h)⟩
      exact ⟨hs₁, fun _ => Iff.rfl, fun _ h => h, (hs₁.black BB).mp hblack⟩
    · rw [if_neg hblack]
      refine visit_spec hs₁ (List.mem_range.mp hBB)
        (fun b hb => absurd ((hgrey₁ b).mp hb) (hclear b)) (Nat.lt_succ_of_le ?_)
      calc (notGrey G s₁).card
          ≤ (Finset.range G.size).card := Finset.card_filter_le _ _
        _ = G.size := Finset.card_range _
  obtain ⟨ok, s', hrun, hcycle, hok⟩ :=
    visitAll_spec hstep (Consistent.clear s) fun _ => Iff.rfl
  cases ok with
  | false =>
      refine ⟨none, s', by rw [doit, hrun]; rfl, ⟨fun _ => hcycle rfl, fun _ => rfl⟩, ?_⟩
      exact fun l hl => by cases hl
  | true =>
      obtain ⟨hs', -, -, hall⟩ := hok rfl
      have hblocks : ∀ b < G.size, b ∈ s'.ordered := fun b hb => hall b (List.mem_range.mpr hb)
      refine ⟨some s'.ordered, s', by rw [doit, hrun]; rfl, ⟨fun h => (by cases h), fun h => ?_⟩, ?_⟩
      · exact absurd h (hs'.ordered.not_cyclic hblocks)
      · intro l hl
        obtain rfl := Option.some.inj hl
        exact ⟨hs'.ordered.nodup, fun b => ⟨hs'.ordered.lt b, hblocks b⟩, hs'.ordered.preds⟩

/-! ## The sorter of a function's blocks -/

/-- The control flow graph of a function. -/
def ofFunction (F : Function) : Graph where
  size := F.blocks.length
  preds := F.predecessors
  preds_lt := fun _ _ _ ha => (Function.edge_lt (Function.mem_predecessors.mp ha)).1

/-- The marks say what the two lists of `TopologicalSorter.visit` say. -/
structure Matches (s : State) (grey ordered : List Nat) : Prop where
  ordered_eq : s.ordered = ordered
  black : ∀ b, s.marks b = some .black ↔ b ∈ ordered
  grey : ∀ b, s.marks b = some .grey ↔ b ∈ grey

theorem visitAll_matches {step : State → Nat → Option (Bool × State)}
    {plain : List Nat → Nat → Option (List Nat)} {grey : List Nat}
    (hstep : ∀ s ordered b ordered', Matches s grey ordered → plain ordered b = some ordered' →
      ∃ s', step s b = some (true, s') ∧ Matches s' grey ordered')
    {blocks : List Nat} {s : State} {ordered ordered' : List Nat} (hs : Matches s grey ordered)
    (hrun : blocks.foldlM plain ordered = some ordered') :
    ∃ s', visitAll step blocks s = some (true, s') ∧ Matches s' grey ordered' := by
  induction blocks generalizing s ordered with
  | nil =>
      obtain rfl : ordered = ordered' := Option.some.inj hrun
      exact ⟨s, rfl, hs⟩
  | cons b blocks ih =>
      rw [List.foldlM_cons] at hrun
      obtain ⟨mid, hmid, hrest⟩ := Option.bind_eq_some_iff.mp hrun
      obtain ⟨s₁, hfirst, hs₁⟩ := hstep s ordered b mid hs hmid
      obtain ⟨s', hvisit, hs'⟩ := ih hs₁ hrest
      exact ⟨s', by simpa [visitAll, hfirst] using hvisit, hs'⟩

/-- A visit that goes well on the lists goes the same way on the marks. -/
theorem visit_matches {F : Function} {fuel fuel' : Nat} (hfuel : fuel ≤ fuel') {s : State}
    {grey ordered ordered' : List Nat} {BB : Nat} (hs : Matches s grey ordered)
    (hvisit : TopologicalSorter.visit F fuel grey ordered BB = some ordered') :
    ∃ s', visit (ofFunction F) fuel' s BB = some (true, s') ∧ Matches s' grey ordered' := by
  induction fuel generalizing fuel' s grey ordered ordered' BB with
  | zero => cases hvisit
  | succ fuel ih =>
      obtain ⟨fuel', rfl⟩ := Nat.exists_eq_add_of_lt hfuel
      rw [TopologicalSorter.visit] at hvisit
      split at hvisit
      case isTrue => cases hvisit
      case isFalse hgrey =>
        have hgrey' : s.marks BB ≠ some .grey := fun h => hgrey ((hs.grey BB).mp h)
        split at hvisit
        case isTrue hblack =>
          obtain rfl : ordered = ordered' := Option.some.inj hvisit
          exact ⟨s, by rw [visit, if_neg hgrey', if_pos ((hs.black BB).mpr hblack)], hs⟩
        case isFalse hblack =>
          have hblack' : s.marks BB ≠ some .black := fun h => hblack ((hs.black BB).mp h)
          obtain ⟨mid, hmid, rfl⟩ := Option.map_eq_some_iff.mp hvisit
          have hmarked : Matches (mark s BB .grey) (BB :: grey) ordered := by
            refine ⟨hs.ordered_eq, fun b => ?_, fun b => ?_⟩
            · rcases eq_or_ne b BB with rfl | hne
              · simpa [mark] using hblack
              · simpa [mark, hne] using hs.black b
            · rcases eq_or_ne b BB with rfl | hne
              · simp [mark]
              · simpa [mark, hne] using hs.grey b
          have hstep : ∀ s₁ mid' a mid'', Matches s₁ (BB :: grey) mid' →
              TopologicalSorter.visit F fuel (BB :: grey) mid' a = some mid'' →
              ∃ s', visit (ofFunction F) (fuel + fuel') s₁ a = some (true, s') ∧
                Matches s' (BB :: grey) mid'' :=
            fun _ _ _ _ hm hv => ih (Nat.le_add_right fuel fuel') hm hv
          obtain ⟨s₁, hpreds, hs₁⟩ := visitAll_matches hstep hmarked hmid
          refine ⟨push (mark s₁ BB .black) BB, ?_, ?_, fun b => ?_, fun b => ?_⟩
          · have hpreds' : visitAll (visit (ofFunction F) (fuel + fuel')) ((ofFunction F).preds BB)
                (mark s BB .grey) = some (true, s₁) := hpreds
            rw [visit, if_neg hgrey', if_neg hblack', hpreds']
            rfl
          · rw [push, mark, hs₁.ordered_eq]
          · rcases eq_or_ne b BB with rfl | hne
            · simp [mark, push]
            · simpa [mark, push, hne] using hs₁.black b
          · rcases eq_or_ne b BB with rfl | hne
            · simpa [mark, push] using hgrey
            · simpa [mark, push, hne] using hs₁.grey b

/-- **On the blocks of a function the marks give the order of `TopologicalSorter.doit`.** -/
theorem doit_ofFunction (F : Function) (s : State) :
    ∃ s', doit (ofFunction F) s = some (TopologicalSorter.doit F, s') := by
  obtain ⟨TO, hTO, -⟩ := TopologicalSorter.doit_spec F
  have hclear : Matches (clear s) [] [] :=
    ⟨rfl, fun b => by simp [clear], fun b => by simp [clear]⟩
  have hstep : ∀ s₁ ordered b ordered', Matches s₁ [] ordered →
      TopologicalSorter.visit F F.blocks.length [] ordered b = some ordered' →
      ∃ s', (if s₁.marks b = some .black then some (true, s₁)
          else visit (ofFunction F) ((ofFunction F).size + 1) s₁ b) = some (true, s') ∧
        Matches s' [] ordered' := by
    intro s₁ ordered b ordered' hs₁ hvisit
    obtain ⟨s', hrun, hs'⟩ := visit_matches (Nat.le_succ _) hs₁ hvisit
    by_cases hblack : s₁.marks b = some .black
    · -- a visit of a black block returns at once, so the test before it changes nothing
      rw [if_pos hblack]
      rw [visit, if_neg (by rw [hblack]; simp), if_pos hblack] at hrun
      exact ⟨s', hrun, hs'⟩
    · exact ⟨s', by rw [if_neg hblack]; exact hrun, hs'⟩
  obtain ⟨s', hrun, hs'⟩ := visitAll_matches hstep hclear hTO
  have hrun' : visitAll _ (List.range (ofFunction F).size) (clear s) = some (true, s') := hrun
  exact ⟨s', by rw [doit, hrun', hTO, ← hs'.ordered_eq]; rfl⟩

end Sorter

end Borealis
