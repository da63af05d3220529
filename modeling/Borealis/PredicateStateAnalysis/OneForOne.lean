import Borealis.Lib.WorkQueue
import Borealis.PredicateStateAnalysis.BlockStates

/-!
# One state for each path

`OneForOne` walks every path from the entry on its own: a queue holds the blocks to be entered
next, each with the state in which it is entered, and handling one of them records a state for each
of its instructions and puts its successors at the end of the queue.  In the end the states
recorded for an instruction become the alternatives of a choice.

## Strategy

The blocks on the queue descend from the entry, and the control flow graph is acyclic, so the queue
runs dry (`Lib.drain_spec`).  The entries for a block have all predicate paths into the block
between them (`exists_entry`, `entry_language_le`), and an entry contributes to each instruction its
paths up to there.
-/

namespace Borealis

open PredicateState PredicateStateBuilder Lib

variable {F : Function}

namespace OneForOne

/-- `WorkQueueEntry`: the predecessor, which is null for the entry block, the block and the state
in which it is entered. -/
structure WorkQueueEntry where
  predBB : Option Nat
  bb : Nat
  inState : PredicateState Predicate

/-- `predicateStates`, with an instruction given by its block and its position there. -/
abbrev Records := Nat → Nat → List (PredicateState Predicate)

/-- `predicateStates[&I].push_back`. -/
def Records.push (r : Records) (bb k : Nat) (s : PredicateState Predicate) : Records :=
  Function.update r bb (Function.update (r bb) k (r bb k ++ [s]))

/-- The loop over the instructions of a block, from position `k` on. -/
def instructionLoop (bb : Nat) : Nat → PredicateState Predicate → List Instruction → Records →
    Records × PredicateState Predicate
  | _, inState, [], r => (r, inState)
  | k, inState, I :: rest, r =>
    let modifiedInState := add inState (basic I.PM)
    instructionLoop bb (k + 1) (afterInstruction I modifiedInState) rest
      (r.push bb k modifiedInState)

/-- `processTerminator`, with `processBranchInst` and `processSwitchInst`: what is put on the
queue. -/
def processTerminator (F : Function) (bb : Nat) (state : PredicateState Predicate) :
    TerminatorInst → List WorkQueueEntry
  | .noSuccessor => []
  | .br succ => [⟨some bb, succ, state⟩]
  | .condBr _ trueSucc falseSucc =>
    [⟨some bb, trueSucc, add state (TPM F bb trueSucc)⟩,
      ⟨some bb, falseSucc, add state (TPM F bb falseSucc)⟩]
  | .switch _ cases defaultSucc =>
    cases.map (fun c => ⟨some bb, c.2, add state (TPM F bb c.2)⟩) ++
      [⟨some bb, defaultSucc, add state (TPM F bb defaultSucc)⟩]

/-- The state behind the phi nodes: without a predecessor there is nothing to add. -/
def entryState (F : Function) (wqe : WorkQueueEntry) : PredicateState Predicate :=
  wqe.predBB.elim wqe.inState fun predBB => addPhis F predBB wqe.bb wqe.inState

variable (P : Pass F)

/-- `processBasicBlock`: the records afterwards, and what is put on the queue. -/
def processBasicBlock (r : Records) (wqe : WorkQueueEntry) : Records × List WorkQueueEntry :=
  if P.checkUnreachable && isUnreachableIn P.check wqe.inState then (r, [])
  else
    let BB := F.block wqe.bb
    let result := instructionLoop wqe.bb BB.phis.length (entryState F wqe) (BB.body ++ [BB.last]) r
    (result.1, processTerminator F wqe.bb result.2 BB.terminator)

/-- `processQueue`. -/
def processQueue : Nat → List WorkQueueEntry → Records → Option Records :=
  drain (processBasicBlock P)

/-- `getInstructionState` after `runOnFunction`, with `finalize`: null for an instruction that has
no state. -/
def getInstructionState (fuel BB k : Nat) : Option (Option (PredicateState Predicate)) :=
  (processQueue P fuel [⟨none, 0, F.initialState⟩] fun _ _ => []).bind fun predicateStates =>
    if (predicateStates BB k).isEmpty then some none
    else (finalizeState P (PredicateStateFactory.choice (predicateStates BB k))).map some

/-! ## One block -/

/-- The settings under which both analyses add the same to a state. -/
def withoutPost : Pass F := { P with assumeDefectsTriggerOnce := false }

theorem Records.mem_push {r : Records} {bb k : Nat} {s t : PredicateState Predicate} {b j : Nat} :
    t ∈ r.push bb k s b j ↔ t ∈ r b j ∨ b = bb ∧ j = k ∧ t = s := by
  unfold Records.push
  rcases eq_or_ne b bb with rfl | hb
  · rw [Function.update_self]
    rcases eq_or_ne j k with rfl | hj
    · rw [Function.update_self, List.mem_append, List.mem_singleton]
      simp
    · rw [Function.update_of_ne hj]
      simp [hj]
  · rw [Function.update_of_ne hb]
    simp [hb]

/-- The loop records the states that `OneForAll` has at the instructions. -/
theorem mem_instructionLoop {bb : Nat} {Is : List Instruction} {k : Nat}
    {s t : PredicateState Predicate} {r : Records} {b j : Nat} :
    t ∈ (instructionLoop bb k s Is r).1 b j ↔ t ∈ r b j ∨ b = bb ∧ k ≤ j ∧
      (OneForAll.instructionLoop (withoutPost P) s Is).1[j - k]? = some t := by
  induction Is generalizing k s r with
  | nil => simp [instructionLoop, OneForAll.instructionLoop]
  | cons I rest ih =>
      rw [instructionLoop, ih, Records.mem_push, or_assoc]
      refine or_congr_right ?_
      have hnext : OneForAll.nextState (withoutPost P) I (add s (basic I.PM)) =
          afterInstruction I (add s (basic I.PM)) := rfl
      rw [OneForAll.instructionLoop, hnext]
      rcases Nat.lt_trichotomy j k with hlt | rfl | hlt
      · have h₁ : ¬ k ≤ j := Nat.not_le_of_lt hlt
        have h₂ : ¬ k + 1 ≤ j := fun h => h₁ (Nat.le_of_succ_le h)
        simp [h₁, h₂, Nat.ne_of_lt hlt]
      · simp [eq_comm]
      · obtain ⟨i, rfl⟩ := Nat.exists_eq_add_of_lt hlt
        have hsub : k + i + 1 - k = i + 1 := by omega
        have hsub' : k + i + 1 - (k + 1) = i := by omega
        have hne : k + i + 1 ≠ k := by omega
        have hle : k + 1 ≤ k + i + 1 := by omega
        simp [hsub, hsub', hne, hle, Nat.le_of_succ_le hle]

theorem instructionLoop_snd {bb k : Nat} {Is : List Instruction} {s : PredicateState Predicate}
    {r : Records} : (instructionLoop bb k s Is r).2 =
      (OneForAll.instructionLoop (withoutPost P) s Is).2 := by
  induction Is generalizing k s r with
  | nil => rfl
  | cons I rest ih => exact ih

/-- The phi nodes of a block add nothing in the loop of `OneForAll`. -/
theorem instructionLoop_phis (phis : List PHINode) (s : PredicateState Predicate)
    (Is : List Instruction) :
    OneForAll.instructionLoop (withoutPost P) s (phis.map (fun _ => { PM := [] }) ++ Is) =
      (phis.map (fun _ => s) ++ (OneForAll.instructionLoop (withoutPost P) s Is).1,
        (OneForAll.instructionLoop (withoutPost P) s Is).2) := by
  induction phis with
  | nil => rfl
  | cons phi phis ih =>
      have hadd : add s (basic []) = s := add_of_isEmpty rfl
      have hnext : OneForAll.nextState (withoutPost P) { PM := [] } s = s := rfl
      rw [List.map_cons, List.cons_append, OneForAll.instructionLoop, hadd, hnext, ih]
      rfl

/-! ## The entries of the queue -/

/-- The state behind the instructions of a block. -/
def outState (wqe : WorkQueueEntry) : PredicateState Predicate :=
  (OneForAll.instructionLoop (withoutPost P) (entryState F wqe)
    (F.block wqe.bb).instructions).2

/-- The entries that handling an entry puts on the queue. -/
def children (wqe : WorkQueueEntry) : List WorkQueueEntry :=
  (F.successors wqe.bb).map fun succ =>
    ⟨some wqe.bb, succ, add (outState P wqe) (TPM F wqe.bb succ)⟩

/-- Every terminator puts its successors on the queue, with the predicates of the edges. -/
theorem processTerminator_eq (bb : Nat) (state : PredicateState Predicate) :
    processTerminator F bb state (F.block bb).terminator =
      (F.successors bb).map fun succ => ⟨some bb, succ, add state (TPM F bb succ)⟩ := by
  have hbr : ∀ succ, (F.block bb).terminator = .br succ → add state (TPM F bb succ) = state := by
    intro succ hterminator
    rw [TPM, hterminator]
    exact add_of_isEmpty rfl
  unfold Function.successors
  cases hterminator : (F.block bb).terminator with
  | noSuccessor => rfl
  | br succ =>
      rw [TerminatorInst.successors, List.map_singleton, hbr succ hterminator]
      rfl
  | condBr cond trueSucc falseSucc => rfl
  | switch cond cases defaultSucc =>
      simp only [TerminatorInst.successors, DefaultPredicateAnalysis.edgePredicates,
        List.map_append, List.map_map, List.map_singleton]
      rfl

section Off

variable {P} (hcheck : P.checkUnreachable = false)

include hcheck

theorem processBasicBlock_eq (r : Records) (wqe : WorkQueueEntry) :
    processBasicBlock P r wqe = ((instructionLoop wqe.bb (F.block wqe.bb).phis.length
      (entryState F wqe) ((F.block wqe.bb).body ++ [(F.block wqe.bb).last]) r).1,
      children P wqe) := by
  have hout : (instructionLoop wqe.bb (F.block wqe.bb).phis.length (entryState F wqe)
      ((F.block wqe.bb).body ++ [(F.block wqe.bb).last]) r).2 = outState P wqe := by
    rw [instructionLoop_snd P, outState, BasicBlock.instructions, instructionLoop_phis]
  rw [processBasicBlock, hcheck, Bool.false_and, if_neg Bool.false_ne_true]
  simp only [hout, processTerminator_eq]
  rfl

/-- What handling an entry records. -/
theorem mem_processBasicBlock {r : Records} {wqe : WorkQueueEntry} {b k : Nat}
    {t : PredicateState Predicate} :
    t ∈ (processBasicBlock P r wqe).1 b k ↔ t ∈ r b k ∨ b = wqe.bb ∧
      (F.block wqe.bb).phis.length ≤ k ∧ (OneForAll.instructionLoop (withoutPost P)
        (entryState F wqe) (F.block wqe.bb).instructions).1[k]? = some t := by
  rw [processBasicBlock_eq hcheck, mem_instructionLoop P]
  refine or_congr_right (and_congr_right fun _ => and_congr_right fun hle => ?_)
  rw [BasicBlock.instructions, instructionLoop_phis, List.getElem?_append_right
    (by rw [List.length_map]; exact hle), List.length_map]

theorem mem_foldl_processBasicBlock {handled : List WorkQueueEntry} {r : Records} {b k : Nat}
    {t : PredicateState Predicate} :
    t ∈ (handled.foldl (fun r wqe => (processBasicBlock P r wqe).1) r) b k ↔
      t ∈ r b k ∨ ∃ wqe ∈ handled, b = wqe.bb ∧ (F.block b).phis.length ≤ k ∧
        (OneForAll.instructionLoop (withoutPost P) (entryState F wqe)
          (F.block b).instructions).1[k]? = some t := by
  induction handled generalizing r with
  | nil => simp
  | cons wqe handled ih =>
      rw [List.foldl_cons, ih, mem_processBasicBlock hcheck, or_assoc, List.exists_mem_cons_iff]
      refine or_congr_right (or_congr_left ?_)
      constructor
      · rintro ⟨rfl, h⟩
        exact ⟨rfl, h⟩
      · rintro ⟨rfl, h⟩
        exact ⟨rfl, h⟩

end Off

/-! ## What the queue visits -/

/-- Along the edges of the control flow graph one cannot go on forever. -/
theorem wellFounded_edge (F : Function) : WellFounded fun b a => F.Edge a b := by
  obtain ⟨rank, hrank⟩ := F.acyclic
  let bound := ((List.range F.blocks.length).map rank).sum
  have hle : ∀ b < F.blocks.length, rank b ≤ bound := fun b hb =>
    List.single_le_sum (fun _ _ => Nat.zero_le _) _
      (List.mem_map.mpr ⟨b, List.mem_range.mpr hb, rfl⟩)
  refine Subrelation.wf (fun {b a} hedge => ?_) (measure fun a => bound - rank a).wf
  have hlt := hrank a b hedge
  have hb := hle b (Function.edge_lt hedge).2
  show bound - rank b < bound - rank a
  omega

theorem mem_children {wqe child : WorkQueueEntry} :
    Child (children P) wqe child ↔ ∃ succ, F.Edge wqe.bb succ ∧
      child = ⟨some wqe.bb, succ, add (outState P wqe) (TPM F wqe.bb succ)⟩ := by
  rw [Child, children, List.mem_map]
  exact exists_congr fun succ => and_congr_right fun _ => eq_comm

theorem wellFounded_child : WellFounded fun b a => Child (children P) a b := by
  refine Subrelation.wf (fun {child wqe} h => ?_)
    (InvImage.wf WorkQueueEntry.bb (wellFounded_edge F))
  obtain ⟨succ, hedge, rfl⟩ := (mem_children P).mp h
  exact hedge

/-- The entry with which the analysis starts. -/
def start (F : Function) : WorkQueueEntry := ⟨none, 0, F.initialState⟩

/-- The entry is visited at some point of the run. -/
def Visited (wqe : WorkQueueEntry) : Prop := Descends (children P) (start F) wqe

/-- A child is entered over its edge with the state that `OneForAll` puts on it. -/
theorem entryState_child (wqe : WorkQueueEntry) (succ : Nat) :
    entryState F ⟨some wqe.bb, succ, add (outState P wqe) (TPM F wqe.bb succ)⟩ =
      OneForAll.edgeState (F := F) wqe.bb succ (outState P wqe) := rfl

/-- What holds of the state of an entry. -/
structure EntrySpec (wqe : WorkQueueEntry) : Prop where
  built : Extends F.initialState (entryState F wqe)
  language_le : ∀ p ∈ (entryState F wqe).language, p ∈ entering F false wqe.bb

namespace EntrySpec

variable {P} {wqe : WorkQueueEntry} (h : EntrySpec (F := F) wqe)

include h

theorem isTidy : (entryState F wqe).isTidy = true := h.built.isTidy F.initialState_isTidy

theorem isEmpty_eq_false : (entryState F wqe).isEmpty = false :=
  h.built.isEmpty_eq_false F.initialState_nonempty

theorem grows_outState : Grows (entryState F wqe) (outState P wqe)
    (blockLanguage false (F.block wqe.bb).instructions)
    (Quiet false (F.block wqe.bb).instructions) :=
  OneForAll.grows_instructionLoop (withoutPost P) (F.block wqe.bb).instructions h.isTidy
    h.isEmpty_eq_false

/-- The state on an edge out of the block. -/
theorem grows_edge {succ : Nat} (hedge : F.Edge wqe.bb succ) :
    Extends (entryState F wqe) (OneForAll.edgeState (F := F) wqe.bb succ (outState P wqe)) ∧
      (OneForAll.edgeState (F := F) wqe.bb succ (outState P wqe)).language =
        (entryState F wqe).language * blockLanguage false (F.block wqe.bb).instructions *
          (basic (edgePart F wqe.bb succ)).language := by
  have hout := h.grows_outState (P := P)
  have hedgeState := OneForAll.grows_edgeState hedge (hout.built.isTidy h.isTidy)
    (hout.built.isEmpty_eq_false h.isEmpty_eq_false)
  exact ⟨hout.built.trans hedgeState.built, by rw [hedgeState.language, hout.language]⟩

end EntrySpec

/-- **Every entry that is visited has predicate paths into its block.** -/
theorem Visited.spec {wqe : WorkQueueEntry} (h : Visited P wqe) : EntrySpec (F := F) wqe := by
  induction h with
  | refl =>
      refine ⟨Extends.refl, fun p hp => ?_⟩
      exact (entering_entry (F := F) false).symm ▸ hp
  | @tail wqe child _ hchild ih =>
      obtain ⟨succ, hedge, rfl⟩ := (mem_children P).mp hchild
      obtain ⟨hbuilt, hlanguage⟩ := ih.grows_edge (P := P) hedge
      refine ⟨ih.built.trans hbuilt, fun p hp => ?_⟩
      have hne : succ ≠ 0 := fun heq => Function.not_edge_entry wqe.bb (heq ▸ hedge)
      rw [entryState_child, hlanguage] at hp
      refine (mem_entering hne).mpr ⟨wqe.bb, hedge, ?_⟩
      obtain ⟨pq, hpq, r, hr, rfl⟩ := Language.mem_mul.mp hp
      obtain ⟨p', hp', q, hq, rfl⟩ := Language.mem_mul.mp hpq
      exact Language.append_mem_mul (Language.append_mem_mul (ih.language_le p' hp') hq) hr

/-- **Every predicate path into a block is one of an entry that is visited.** -/
theorem exists_visited {b : Nat} {p : List Predicate} (hp : Enters F false b p) :
    ∃ wqe, Visited P wqe ∧ wqe.bb = b ∧ p ∈ (entryState F wqe).language := by
  induction hp with
  | entry hp => exact ⟨start F, Relation.ReflTransGen.refl, rfl, hp⟩
  | @edge a b p q _ hq hedge ih =>
      obtain ⟨wqe, hvisited, rfl, hp⟩ := ih
      refine ⟨⟨some wqe.bb, b, add (outState P wqe) (TPM F wqe.bb b)⟩,
        hvisited.tail ((mem_children P).mpr ⟨b, hedge, rfl⟩), rfl, ?_⟩
      rw [entryState_child, ((hvisited.spec P).grows_edge (P := P) hedge).2]
      exact Language.append_mem_mul (Language.append_mem_mul hp hq) (mem_paths_basic.mpr rfl)

/-- A block that can be reached is visited. -/
theorem exists_visited_of_hasWalk {b : Nat} (hb : HasWalk F.Edge 0 b) :
    ∃ wqe, Visited P wqe ∧ wqe.bb = b := by
  obtain ⟨l, hl⟩ := hb
  induction hl with
  | root => exact ⟨start F, Relation.ReflTransGen.refl, rfl⟩
  | @step a b l _ hedge ih =>
      obtain ⟨wqe, hvisited, rfl⟩ := ih
      exact ⟨⟨some wqe.bb, b, add (outState P wqe) (TPM F wqe.bb b)⟩,
        hvisited.tail ((mem_children P).mpr ⟨b, hedge, rfl⟩), rfl⟩

/-! ## The states that are handed out -/

section Off

variable {P} (hcheck : P.checkUnreachable = false)

include hcheck

/-- **The queue runs dry**, and every instruction behind the phi nodes has a state for each entry of
its block. -/
theorem processQueue_spec : ∃ (n : Nat) (r : Records),
    (∀ fuel ≥ n, processQueue P fuel [start F] (fun _ _ => []) = some r) ∧
    ∀ b k t, t ∈ r b k ↔ ∃ wqe, Visited P wqe ∧ b = wqe.bb ∧ (F.block b).phis.length ≤ k ∧
      (OneForAll.instructionLoop (withoutPost P) (entryState F wqe)
        (F.block b).instructions).1[k]? = some t := by
  obtain ⟨n, handled, hrun, hmem⟩ := @drain_spec WorkQueueEntry Records
    (processBasicBlock P) (children P)
    (fun r wqe => congrArg Prod.snd (processBasicBlock_eq hcheck r wqe)) (wellFounded_child P)
    [start F] (fun _ _ => [])
  refine ⟨n, _, hrun, fun b k t => ?_⟩
  rw [mem_foldl_processBasicBlock hcheck, or_iff_right List.not_mem_nil]
  refine exists_congr fun wqe => and_congr_left fun _ => ?_
  rw [hmem wqe]
  simp only [List.mem_singleton, exists_eq_left]
  rfl

/-- **What `OneForOne` hands out**: all predicate paths to the instruction, and nothing for a phi
node. -/
theorem getInstructionState_spec {b k : Nat} (hwalk : HasWalk F.Edge 0 b)
    (hk : k < (F.block b).instructions.length) :
    ∃ n t?, (∀ fuel ≥ n, getInstructionState P fuel b k = some t?) ∧
      ((F.block b).phis.length ≤ k → ∃ t, t? = some t ∧ t.language = Language.map P.RR
        (entering F false b * prefixLanguage false (F.block b).instructions k)) ∧
      (k < (F.block b).phis.length → t? = none) := by
  obtain ⟨n, r, hrun, hmem⟩ := processQueue_spec hcheck
  have hget : ∀ fuel ≥ n, getInstructionState P fuel b k =
      if (r b k).isEmpty then some none
      else (finalizeState P (PredicateStateFactory.choice (r b k))).map some := by
    intro fuel hfuel
    have := hrun fuel hfuel
    rw [start] at this
    rw [getInstructionState, this]
    rfl
  rcases Nat.lt_or_ge k (F.block b).phis.length with hlt | hge
  · have hnil : r b k = [] := List.eq_nil_iff_forall_not_mem.mpr fun t ht => by
      obtain ⟨wqe, -, -, hle, -⟩ := (hmem b k t).mp ht
      exact absurd hlt (Nat.not_lt_of_le hle)
    refine ⟨n, none, fun fuel hfuel => ?_, fun hle => absurd hlt (Nat.not_lt_of_le hle),
      fun _ => rfl⟩
    rw [hget fuel hfuel, hnil]
    rfl
  · have hat : ∀ wqe, Visited P wqe → wqe.bb = b → ∃ t, t ∈ r b k ∧ t.isTidy = true ∧
        t.language = (entryState F wqe).language *
          prefixLanguage false (F.block b).instructions k := by
      rintro wqe hvisited rfl
      have hlt : k < (OneForAll.instructionLoop (withoutPost P) (entryState F wqe)
          (F.block wqe.bb).instructions).1.length := by
        rw [OneForAll.length_instructionLoop]
        exact hk
      have hspec := hvisited.spec P
      obtain ⟨htidy, hlanguage⟩ := OneForAll.instructionLoop_getElem (withoutPost P) hspec.isTidy
        hspec.isEmpty_eq_false (List.getElem?_eq_getElem hlt)
      exact ⟨_, (hmem _ _ _).mpr ⟨wqe, hvisited, rfl, hge, List.getElem?_eq_getElem hlt⟩, htidy,
        hlanguage⟩
    have hall : ∀ t ∈ r b k, ∃ wqe, Visited P wqe ∧ wqe.bb = b ∧ t.isTidy = true ∧
        t.language = (entryState F wqe).language *
          prefixLanguage false (F.block b).instructions k := by
      intro t ht
      obtain ⟨wqe, hvisited, rfl, -, hstate⟩ := (hmem b k t).mp ht
      have hspec := hvisited.spec P
      obtain ⟨htidy, hlanguage⟩ := OneForAll.instructionLoop_getElem (withoutPost P) hspec.isTidy
        hspec.isEmpty_eq_false hstate
      exact ⟨wqe, hvisited, rfl, htidy, hlanguage⟩
    have hne : r b k ≠ [] := by
      obtain ⟨wqe, hvisited, hbb⟩ := exists_visited_of_hasWalk P hwalk
      obtain ⟨t, ht, -⟩ := hat wqe hvisited hbb
      exact List.ne_nil_of_mem ht
    obtain ⟨t, ht, hlanguage⟩ := finalizeState_spec P
      (isTidy_factoryChoice hne fun t ht => (hall t ht).choose_spec.2.2.1)
    refine ⟨n, some t, fun fuel hfuel => ?_, fun _ => ⟨t, rfl, ?_⟩,
      fun hlt => absurd hlt (Nat.not_lt_of_le hge)⟩
    · rw [hget fuel hfuel, if_neg (by rw [List.isEmpty_iff]; exact hne), ht]
      rfl
    · rw [hlanguage, language_factoryChoice]
      refine congrArg (Language.map P.RR) (Set.Subset.antisymm (fun path hpath => ?_)
        fun path hpath => ?_)
      · obtain ⟨s, hs, hmem⟩ := mem_language_choice.mp hpath
        obtain ⟨wqe, hvisited, rfl, -, hlanguage⟩ := hall s hs
        obtain ⟨p, hp, q, hq, rfl⟩ := Language.mem_mul.mp (hlanguage ▸ hmem)
        exact Language.append_mem_mul ((hvisited.spec P).language_le p hp) hq
      · obtain ⟨p, hp, q, hq, rfl⟩ := Language.mem_mul.mp hpath
        obtain ⟨wqe, hvisited, hbb, hp⟩ := exists_visited P hp
        obtain ⟨s, hs, -, hlanguage⟩ := hat wqe hvisited hbb
        exact mem_language_choice.mpr ⟨s, hs, hlanguage ▸ Language.append_mem_mul hp hq⟩

end Off

end OneForOne

end Borealis
