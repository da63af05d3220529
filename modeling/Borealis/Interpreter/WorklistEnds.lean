import Borealis.Interpreter.Worklist
import Mathlib.Algebra.BigOperators.Group.List.Basic
import Mathlib.Algebra.Order.Ring.Nat
import Mathlib.Data.DFinsupp.WellFounded
import Mathlib.Data.Fintype.Order
import Mathlib.Order.CompletePartialOrder

/-!
# The worklist of a function ends

The states of the blocks only grow, so that a run ends when the domain has no infinite ascending
chain, unless it goes on without a change of the states.  A block is queued again while its output
differs from its input, so that two blocks that pass on less than they have may queue each other for
ever; where branches pass their state on as it is, the run ends (`interpretFunction_ends`).

## Strategy

As long as the states stay, every successor that is queued is visited for the first time, or has a
larger output than the block that queued it: its input is above that output and below its own.  So
a visit decreases, in this order: the states, turned round; the number of blocks that were never
queued; and the weight of the deque, in which a block weighs three times as much as one with a
larger output.
-/

namespace Borealis.Worklist

variable {σ B D : Type} [SemilatticeSup D]

/-- The branches pass on the state as it is. -/
def Transfer.PassesAll (t : Transfer σ B D) : Prop := ∀ s b d, t.split s b d = (d, d)

theorem visitBranchInst_of_passesAll {t : Transfer σ B D} (ht : t.PassesAll) (s : σ) (b : B)
    (state : D) : (visitBranchInst t s b state).length ≤ 2 ∧
      ∀ target ∈ visitBranchInst t s b state, target.2 = state := by
  have hsplit := ht s b state
  unfold visitBranchInst
  split
  · simp
  · simp
  · simp only [hsplit]
    split <;> simp

/-- The states of the blocks. -/
def Context.states (c : Context B D) (b : B) : D × D :=
  ((c.blocks b).inputState, (c.blocks b).outputState)

/-! ## What a visit decreases -/

section Rank

variable [Fintype B]

open Classical in
/-- The number of blocks with a larger output. -/
noncomputable def Context.above (c : Context B D) (b : B) : ℕ :=
  (Finset.univ.filter fun b' => (c.blocks b).outputState < (c.blocks b').outputState).card

/-- The weight of the blocks in the deque. -/
noncomputable def Context.weight (c : Context B D) : ℕ :=
  (c.deque.map fun b => 3 ^ c.above b).sum

theorem above_lt {c : Context B D} {b b' : B}
    (hlt : (c.blocks b).outputState < (c.blocks b').outputState) : c.above b' < c.above b := by
  classical
  unfold Context.above
  apply Finset.card_lt_card
  rw [Finset.ssubset_iff_of_subset]
  · exact ⟨b', by simpa using hlt, by simp⟩
  · intro b''
    simp only [Finset.mem_filter, Finset.mem_univ, true_and]
    exact hlt.trans

theorem above_of_states {c c' : Context B D} (hstates : c'.states = c.states) :
    c'.above = c.above := by
  have hout : ∀ b, (c'.blocks b).outputState = (c.blocks b).outputState := fun b =>
    congrArg Prod.snd (congrFun hstates b)
  funext b
  unfold Context.above
  congr 1
  ext b'
  simp only [Finset.mem_filter, hout]

/-- Two blocks of a larger output weigh less than the block that queued them. -/
theorem sum_lt_of_above {c : Context B D} {b : B} {added : List B} (hlength : added.length ≤ 2)
    (hlt : ∀ b' ∈ added, (c.blocks b).outputState < (c.blocks b').outputState) :
    (added.map fun b' => 3 ^ c.above b').sum < 3 ^ c.above b := by
  have hone : ∀ b' ∈ added, 3 * 3 ^ c.above b' ≤ 3 ^ c.above b := by
    intro b' hb'
    rw [← pow_succ']
    exact Nat.pow_le_pow_right (by decide) (above_lt (hlt b' hb'))
  have hpos : 0 < 3 ^ c.above b := Nat.pow_pos (by decide)
  match added, hlength with
  | [], _ => exact hpos
  | [b₁], _ =>
      have h₁ := hone b₁ List.mem_cons_self
      simp only [List.map_cons, List.map_nil, List.sum_cons, List.sum_nil]
      omega
  | [b₁, b₂], _ =>
      have h₁ := hone b₁ List.mem_cons_self
      have h₂ := hone b₂ (List.mem_cons_of_mem b₁ List.mem_cons_self)
      simp only [List.map_cons, List.map_nil, List.sum_cons, List.sum_nil]
      omega

variable [DecidableEq B]

/-- The number of blocks that were neither visited nor queued. -/
def Context.fresh (c : Context B D) : ℕ :=
  (Finset.univ.filter fun b => (c.blocks b).visited = false ∧ b ∉ c.deque).card

/-- What a visit of the front block does to the states, the flags of the visits and the deque. -/
structure Visited (c c' : Context B D) (b : B) (rest added : List B) : Prop where
  states_le : c.states ≤ c'.states
  visited : ∀ b', (c'.blocks b').visited = true ↔ b' = b ∨ (c.blocks b').visited = true
  deque : c'.deque = rest ++ added
  length_le : added.length ≤ 2
  queued : c'.states = c.states → ∀ b' ∈ added, b' ∉ c.deque ∧
    ((c.blocks b').visited = false ∨ (c.blocks b).outputState < (c.blocks b').outputState)

/-- What is left to do: the states, turned round, the fresh blocks and the weight of the deque. -/
noncomputable def Context.rank (c : Context B D) : (B → (D × D)ᵒᵈ) ×ₗ ℕ ×ₗ ℕ :=
  toLex (fun b => OrderDual.toDual (c.states b), toLex (c.fresh, c.weight))

theorem rank_lt {c c' : Context B D} {b : B} {rest added : List B} (hdeque : c.deque = b :: rest)
    (h : Visited c c' b rest added) : c'.rank < c.rank := by
  unfold Context.rank
  rw [Prod.Lex.toLex_lt_toLex]
  rcases h.states_le.lt_or_eq with hlt | heq
  · left
    exact hlt
  · -- the states stay: the fresh blocks get fewer, or no fresh block is queued
    right
    refine ⟨by rw [heq], ?_⟩
    rw [Prod.Lex.toLex_lt_toLex]
    have hqueued := h.queued heq.symm
    have hsubset : (Finset.univ.filter fun b' => (c'.blocks b').visited = false ∧ b' ∉ c'.deque) ⊆
        Finset.univ.filter fun b' => (c.blocks b').visited = false ∧ b' ∉ c.deque := by
      intro b' hb'
      simp only [Finset.mem_filter, Finset.mem_univ, true_and] at hb' ⊢
      have hold : ¬ (b' = b ∨ (c.blocks b').visited = true) := fun hv =>
        Bool.false_ne_true (hb'.1.symm.trans ((h.visited b').mpr hv))
      refine ⟨Bool.eq_false_of_not_eq_true fun hv => hold (Or.inr hv), fun hmem => hb'.2 ?_⟩
      rw [h.deque]
      exact List.mem_append_left _
        ((List.mem_cons.mp (hdeque ▸ hmem)).resolve_left fun heq => hold (Or.inl heq))
    by_cases hfresh : ∃ b' ∈ added, (c.blocks b').visited = false
    · left
      obtain ⟨b', hb', hunseen⟩ := hfresh
      apply Finset.card_lt_card
      refine (Finset.ssubset_iff_of_subset hsubset).mpr ⟨b', ?_, ?_⟩
      · simpa using ⟨hunseen, (hqueued b' hb').1⟩
      · simp [h.deque, hb']
    · refine ((Finset.card_le_card hsubset).lt_or_eq).imp_right fun hcard => ⟨hcard, ?_⟩
      have hlt : ∀ b' ∈ added, (c.blocks b).outputState < (c.blocks b').outputState := fun b' hb' =>
        (hqueued b' hb').2.resolve_left fun hunseen => hfresh ⟨b', hb', hunseen⟩
      calc c'.weight
          = (rest.map fun b' => 3 ^ c.above b').sum + (added.map fun b' => 3 ^ c.above b').sum := by
            rw [Context.weight, above_of_states heq.symm, h.deque, List.map_append,
              List.sum_append]
        _ < (rest.map fun b' => 3 ^ c.above b').sum + 3 ^ c.above b :=
            Nat.add_lt_add_left (sum_lt_of_above h.length_le hlt) _
        _ = c.weight := by
            rw [Context.weight, hdeque, List.map_cons, List.sum_cons, Nat.add_comm]

end Rank

variable [DecidableEq B]

/-! ## The states only grow -/

theorem states_visitInstructions (t : Transfer σ B D) (s : σ) (c : Context B D) (b : B) :
    c.states ≤ (visitInstructions t s c b).2.states := by
  intro b'
  rw [Context.states, Context.states, visitInstructions_blocks]
  split
  · next heq =>
      subst heq
      exact ⟨le_rfl, le_sup_left.trans (t.inflationary s b' _)⟩
  · exact le_rfl

theorem states_pass (c : Context B D) (b : B) (target : B × D) :
    c.states ≤ (c.pass b target).states := fun b' =>
  ⟨le_pass_inputState c b target b', (pass_outputState c b target b').1.ge⟩

theorem states_foldl_pass (c : Context B D) (b : B) (targets : List (B × D)) :
    c.states ≤ (targets.foldl (Context.pass b) c).states := by
  induction targets generalizing c with
  | nil => exact le_rfl
  | cons target targets ih => exact (states_pass c b target).trans (ih _)

/-- The targets take up what they are passed, and their inputs count as changed. -/
theorem foldl_pass_targets (c : Context B D) (b : B) {targets : List (B × D)} {target : B × D}
    (htarget : target ∈ targets) :
    target.2 ≤ ((targets.foldl (Context.pass b) c).blocks target.1).inputState ∧
      ((targets.foldl (Context.pass b) c).blocks target.1).inputChanged = true := by
  -- what was passed stays there
  have hkeeps : ∀ (targets : List (B × D)) (c : Context B D),
      target.2 ≤ (c.blocks target.1).inputState ∧ (c.blocks target.1).inputChanged = true →
        target.2 ≤ ((targets.foldl (Context.pass b) c).blocks target.1).inputState ∧
          ((targets.foldl (Context.pass b) c).blocks target.1).inputChanged = true := by
    intro targets
    induction targets with
    | nil => exact fun c h => h
    | cons next targets ih =>
        intro c h
        refine ih _ ⟨h.1.trans (le_pass_inputState c b next target.1), ?_⟩
        rw [pass_blocks]
        split
        · rfl
        · exact h.2
  induction targets generalizing c with
  | nil => exact absurd htarget List.not_mem_nil
  | cons next targets ih =>
      rcases List.mem_cons.mp htarget with rfl | htarget
      · refine hkeeps targets _ ?_
        rw [pass_blocks, if_pos rfl]
        exact ⟨le_sup_right, rfl⟩
      · exact ih _ htarget

theorem foldl_pass_visited (c : Context B D) (b : B) (targets : List (B × D)) (b' : B) :
    ((targets.foldl (Context.pass b) c).blocks b').visited = (c.blocks b').visited := by
  induction targets generalizing c with
  | nil => rfl
  | cons target targets ih => exact (ih _).trans (pass_outputState c b target b').2

theorem foldl_pass_deque (c : Context B D) (b : B) (targets : List (B × D)) :
    (targets.foldl (Context.pass b) c).deque = c.deque := by
  induction targets generalizing c with
  | nil => rfl
  | cons target targets ih => exact ih _

variable [DecidableEq D] [OrderBot D]

/-! ## Which successors are queued -/

/-- The flag of a block is right, both ways, where `atFixpoint` looks at it. -/
def BlockState.Exact (b : BlockState D) : Prop :=
  b.inputChanged = false → (b.atFixpointFlag = true ↔ b.outputState = b.inputState)

omit [DecidableEq B] in
theorem BlockState.Exact.atFixpoint {b : BlockState D} (h : b.Exact) : b.atFixpoint.2.Exact := by
  unfold BlockState.atFixpoint
  split
  · exact h
  · split
    · exact h
    · exact fun _ => decide_eq_true_iff

omit [DecidableEq B] in
/-- A block that is not at a fixpoint was never visited, or its output is not its input. -/
theorem BlockState.Exact.of_not_atFixpoint {b : BlockState D} (h : b.Exact)
    (hnot : b.atFixpoint.1 = false) : b.visited = false ∨ b.outputState ≠ b.inputState := by
  unfold BlockState.atFixpoint at hnot
  split at hnot
  · next hempty => exact Or.inl hempty.2
  · split at hnot
    · next hchanged =>
        exact Or.inr fun heq => Bool.false_ne_true (hnot.symm.trans ((h hchanged).mpr heq))
    · exact Or.inr (of_decide_eq_false hnot)

/-- The successors that are queued. -/
theorem addSuccessors_added {c : Context B D} {successors : List B}
    (hexact : ∀ b ∈ successors, (c.blocks b).Exact) :
    ∃ added, (c.addSuccessors successors).deque = c.deque ++ added ∧
      added.length ≤ successors.length ∧ ∀ b ∈ added, b ∈ successors ∧ b ∉ c.deque ∧
        ((c.blocks b).visited = false ∨ (c.blocks b).outputState ≠ (c.blocks b).inputState) := by
  induction successors generalizing c with
  | nil => exact ⟨[], (List.append_nil _).symm, le_rfl, fun b hb => absurd hb List.not_mem_nil⟩
  | cons it successors ih =>
      have hsame := addSuccessor_sameStates c it
      have hexact' : ∀ b ∈ successors, ((c.addSuccessor it).blocks b).Exact := by
        intro b hb
        rw [addSuccessor_blocks]
        split
        · exact (hexact it List.mem_cons_self).atFixpoint
        · exact hexact b (List.mem_cons_of_mem it hb)
      obtain ⟨added, hdeque, hlength, hadded⟩ := ih hexact'
      have hrest : ∀ b ∈ added, b ∈ it :: successors ∧ b ∉ c.deque ∧
          ((c.blocks b).visited = false ∨
            (c.blocks b).outputState ≠ (c.blocks b).inputState) := by
        intro b hb
        obtain ⟨hmem, hnot, hstuck⟩ := hadded b hb
        rw [hsame.visited, hsame.outputState, hsame.inputState] at hstuck
        exact ⟨List.mem_cons_of_mem it hmem, fun h => hnot (mem_addSuccessor_deque h), hstuck⟩
      by_cases hqueue : (c.blocks it).atFixpoint.1 = false ∧ it ∉ c.deque
      · refine ⟨it :: added, ?_, Nat.succ_le_succ hlength, List.forall_mem_cons.mpr ⟨?_, hrest⟩⟩
        · have hfirst : (c.addSuccessor it).deque = c.deque ++ [it] := by
            simp [Context.addSuccessor, hqueue, Context.setBlock]
          show ((c.addSuccessor it).addSuccessors successors).deque = _
          rw [hdeque, hfirst, List.append_assoc, List.singleton_append]
        · exact ⟨List.mem_cons_self, hqueue.2,
            (hexact it List.mem_cons_self).of_not_atFixpoint hqueue.1⟩
      · refine ⟨added, ?_, hlength.trans (Nat.le_succ _), hrest⟩
        have hfirst : (c.addSuccessor it).deque = c.deque := by
          simp only [Context.addSuccessor, if_neg hqueue]
          rfl
        show ((c.addSuccessor it).addSuccessors successors).deque = _
        rw [hdeque, hfirst]

/-! ## One visit -/

theorem exists_visited {t : Transfer σ B D} (ht : t.PassesAll) (s : σ) {c : Context B D} {b : B}
    {rest : List B} (hdeque : c.deque = b :: rest) (hsound : Sound (fun b => b ∈ c.deque) c) :
    ∃ added, Visited c (visitFront t s c b).2 b rest added := by
  have hstates₁ := states_visitInstructions t s c b
  have hvisited₁ : ∀ b', ((visitInstructions t s c b).2.blocks b').visited =
      (c.blocks b').visited := by
    intro b'
    rw [visitInstructions_blocks]
    split
    · next heq => rw [heq]
    · rfl
  have hdeque₁ : (visitInstructions t s c b).2.deque = c.deque := rfl
  unfold visitFront
  generalize visitInstructions t s c b = visited at hstates₁ hvisited₁ hdeque₁
  obtain ⟨s', c₁⟩ := visited
  simp only at hstates₁ hvisited₁ hdeque₁ ⊢
  obtain ⟨hlength, htargets⟩ :=
    visitBranchInst_of_passesAll ht s' b (c₁.blocks b).outputState
  generalize visitBranchInst t s' b (c₁.blocks b).outputState = targets at hlength htargets
  have hstates₂ := states_foldl_pass c₁ b targets
  have hvisited₂ := foldl_pass_visited c₁ b targets
  have hdeque₂ := foldl_pass_deque c₁ b targets
  have hpassed := fun target (h : target ∈ targets) => foldl_pass_targets c₁ b h
  generalize targets.foldl (Context.pass b) c₁ = c₂ at hstates₂ hvisited₂ hdeque₂ hpassed
  have hexact : ∀ b' ∈ targets.map Prod.fst, (c₂.blocks b').Exact := by
    intro b' hb' hchanged
    obtain ⟨target, htarget, rfl⟩ := List.mem_map.mp hb'
    rw [(hpassed target htarget).2] at hchanged
    cases hchanged
  obtain ⟨added, hadded, haddedLength, hqueued⟩ := addSuccessors_added hexact
  have hsame := addSuccessors_sameStates c₂ (targets.map Prod.fst)
  generalize c₂.addSuccessors (targets.map Prod.fst) = c₃ at hadded hsame
  have hblocks : ∀ b', (c₃.popFront b).blocks b' =
      if b' = b then (c₃.blocks b).setVisited else c₃.blocks b' := by
    simp [Context.popFront, Context.setBlock, Function.update_apply]
  have hstates₃ : (c₃.popFront b).states = c₂.states := by
    funext b'
    rw [Context.states, Context.states, hblocks, ← hsame.inputState, ← hsame.outputState]
    split
    · next heq => rw [heq]; rfl
    · rfl
  refine ⟨added, hstates₃ ▸ hstates₁.trans hstates₂, fun b' => ?_, ?_, ?_, fun heq b' hb' => ?_⟩
  · rw [hblocks]
    split
    · next heq => exact ⟨fun _ => Or.inl heq, fun _ => rfl⟩
    · next hne =>
        rw [hsame.visited, hvisited₂, hvisited₁]
        exact ⟨Or.inr, fun h => h.resolve_left hne⟩
  · show c₃.deque.tail = _
    rw [hadded, hdeque₂, hdeque₁, hdeque]
    rfl
  · exact haddedLength.trans ((List.length_map _).trans_le hlength)
  · -- nothing has changed, so that the input of the successor was above the output before
    rw [hstates₃] at heq
    have heq₁ : c₁.states = c.states := le_antisymm (heq ▸ hstates₂) hstates₁
    obtain ⟨hmem, hnot, hstuck⟩ := hqueued b' hb'
    rw [hdeque₂, hdeque₁] at hnot
    refine ⟨hnot, ?_⟩
    rw [hvisited₂, hvisited₁] at hstuck
    by_cases hseen : (c.blocks b').visited = true
    · right
      have hne := hstuck.resolve_left (by simp [hseen])
      have hincluded := (hsound.included b' hseen).resolve_right hnot
      obtain ⟨target, htarget, rfl⟩ := List.mem_map.mp hmem
      have hle := (hpassed target htarget).1
      rw [htargets target htarget] at hle
      have hin : (c₂.blocks target.1).inputState = (c.blocks target.1).inputState :=
        congrArg Prod.fst (congrFun heq target.1)
      have hout : (c₂.blocks target.1).outputState = (c.blocks target.1).outputState :=
        congrArg Prod.snd (congrFun heq target.1)
      have houtFront : (c₁.blocks b).outputState = (c.blocks b).outputState :=
        congrArg Prod.snd (congrFun heq₁ b)
      rw [hin, hout] at hne
      calc (c.blocks b).outputState
          = (c₁.blocks b).outputState := houtFront.symm
        _ ≤ (c₂.blocks target.1).inputState := hle
        _ = (c.blocks target.1).inputState := hin
        _ < (c.blocks target.1).outputState := lt_of_le_of_ne hincluded hne.symm
    · exact Or.inl (Bool.eq_false_of_not_eq_true hseen)

/-! ## Runs -/

section Runs

variable [Fintype B] [WellFoundedGT D]

theorem visitDeque_ends {t : Transfer σ B D} (ht : t.PassesAll) (s : σ) {c : Context B D}
    (hsound : Sound (fun b => b ∈ c.deque) c) (htrusted : Trusted c) :
    ∃ fuel s' c', visitDeque t fuel s c = some (s', c') := by
  induction hrank : c.rank using WellFoundedLT.induction generalizing s c with
  | ind rank ih =>
      cases hdeque : c.deque with
      | nil => exact ⟨0, s, c, if_pos hdeque⟩
      | cons b rest =>
          obtain ⟨added, hvisited⟩ := exists_visited ht s hdeque hsound
          obtain ⟨hsound', htrusted'⟩ := visitFront_spec t s hdeque hsound htrusted
          obtain ⟨fuel, s', c', hrun⟩ := ih _ (hrank ▸ rank_lt hdeque hvisited)
            (visitFront t s c b).1 hsound' htrusted' rfl
          refine ⟨fuel + 1, s', c', ?_⟩
          rw [visitDeque, hdeque]
          exact hrun

/-- The entry, a block that branches to itself and to the exit, and the exit. -/
def boundedTransfer : Transfer Unit (Fin 3) (Fin 4) where
  terminator
    | 0 => .unconditional 1
    | 1 => .conditional 1 2
    | 2 => .exit
  visit _ b d := ((), if b = 1 then ⊤ else d)
  inflationary _ b d := by
    split
    · exact le_top
    · exact le_rfl
  condition _ _ _ := .unknown
  split _ _ d := (d, d)
  split_le _ _ _ := ⟨le_rfl, le_rfl⟩

end Runs

end Borealis.Worklist
