import Borealis.PredicateStateAnalysis.OneForOne
import Borealis.PredicateStateAnalysis.Requests

/-!
# The two analyses agree

`OneForAll` shares the states of dominators, `OneForOne` walks every path.  Both have been measured
against the predicate paths of the control flow graph, so what is left is to compare the two
measurements (`agrees_iff`).

They differ in three places.  `OneForAll` does not get past a block that it cannot process, and
then no block behind it has states; `OneForOne` has no states for phi nodes; and with
`assumeDefectsTriggerOnce` only `OneForAll` adds the post-predicates of the instructions.
-/

namespace Borealis

open PredicateState Lib

variable {F : Function}

/-- The state that `OneForAll` hands out for an instruction, after other requests, has the paths
that `OneForOne` enumerates for it. -/
def Agrees (P : Pass F) (st : OneForAll.State) (b k : Nat) : Prop :=
  ∃ st' s, OneForAll.getInstructionState P st b k = some (st', s) ∧
    ∃ n t, (∀ fuel ≥ n, OneForOne.getInstructionState P fuel b k = some (some t)) ∧
      ∀ p, p ∈ s.paths ↔ p ∈ t.paths

/-- The predicate paths to an instruction, as they are handed out. -/
def handedOut (P : Pass F) (post : Bool) (b k : Nat) : Language Predicate :=
  Language.map P.RR (entering F post b * prefixLanguage post (F.block b).instructions k)

/-- No path to the instruction is changed by the post-predicates, which are there only with
`assumeDefectsTriggerOnce`. -/
def PostUnseen (P : Pass F) (b k : Nat) : Prop :=
  P.assumeDefectsTriggerOnce = true → handedOut P true b k = handedOut P false b k

theorem postUnseen_iff {P : Pass F} {b k : Nat} : PostUnseen P b k ↔
    handedOut P P.assumeDefectsTriggerOnce b k = handedOut P false b k := by
  unfold PostUnseen
  cases P.assumeDefectsTriggerOnce with
  | false => exact ⟨fun _ => rfl, fun _ h => absurd h Bool.false_ne_true⟩
  | true => exact ⟨fun h => h rfl, fun h _ => h⟩

theorem lt_of_hasWalk {b : Nat} (h : HasWalk F.Edge 0 b) : b < F.blocks.length := by
  obtain ⟨l, hl⟩ := h
  cases hl with
  | root => exact F.entry_lt
  | step _ hedge => exact (Function.edge_lt hedge).2

/-- **The analyses agree on an instruction exactly when it is no phi node, every block that leads to
it can be processed, and the post-predicates change no path to it**, whatever was asked for
before. -/
theorem agrees_iff {P : Pass F} (hcheck : P.checkUnreachable = false) {st : OneForAll.State}
    (hasked : OneForAll.Asked P st) {b k : Nat} (hwalk : HasWalk F.Edge 0 b)
    (hk : k < (F.block b).instructions.length) :
    Agrees P st b k ↔ (F.block b).phis.length ≤ k ∧
      (∀ c, LeadsTo F c b → Processable F P.assumeDefectsTriggerOnce c) ∧ PostUnseen P b k := by
  have hgood := hasked.good hcheck
  have hlt := lt_of_hasWalk hwalk
  obtain ⟨n, t?, hrun, hstate, hphi⟩ := OneForOne.getInstructionState_spec hcheck hwalk hk
  constructor
  · rintro ⟨st', s, hall, n', t, hone, hpaths⟩
    -- the two fuel bounds have a common one
    obtain rfl : some t = t? := Option.some.inj
      ((hone (max n n') (Nat.le_max_right n n')).symm.trans (hrun _ (Nat.le_max_left n n')))
    have hle : (F.block b).phis.length ≤ k := by
      by_contra hlt
      exact absurd (hphi (Nat.lt_of_not_le hlt)) (Option.some_ne_none t)
    have hprocessable : ∀ c, LeadsTo F c b → Processable F P.assumeDefectsTriggerOnce c := by
      intro c hc
      by_contra hnot
      have hnone := OneForAll.getInstructionState_eq_none hcheck hgood hc hnot hlt k
      exact absurd (hnone.symm.trans hall) (Option.some_ne_none _).symm
    refine ⟨hle, hprocessable, postUnseen_iff.mpr ?_⟩
    obtain ⟨st'', s', hall', hlanguage⟩ :=
      OneForAll.getInstructionState_spec hcheck hgood hk hprocessable hlt
    obtain ⟨rfl, rfl⟩ := Prod.mk.inj (Option.some.inj (hall.symm.trans hall'))
    obtain ⟨t', ht', htLanguage⟩ := hstate hle
    obtain rfl := Option.some.inj ht'
    calc handedOut P P.assumeDefectsTriggerOnce b k = s.language := hlanguage.symm
      _ = t.language := Set.ext hpaths
      _ = handedOut P false b k := htLanguage
  · rintro ⟨hle, hprocessable, hpost⟩
    obtain ⟨st', s, hall, hlanguage⟩ :=
      OneForAll.getInstructionState_spec hcheck hgood hk hprocessable hlt
    obtain ⟨t, rfl, htLanguage⟩ := hstate hle
    refine ⟨st', s, hall, n, t, hrun, fun p => ?_⟩
    have heq : s.language = t.language := calc
      s.language = handedOut P P.assumeDefectsTriggerOnce b k := hlanguage
      _ = handedOut P false b k := postUnseen_iff.mp hpost
      _ = t.language := htLanguage.symm
    rw [← mem_language, ← mem_language, heq]

/-! ### Functions with two blocks -/

/-- An entry block all of whose edges lead to one other block. -/
def twoBlocks (entry : BasicBlock) (hentry : ∀ b ∈ entry.terminator.successors, b = 1) :
    Function where
  blocks := [entry, {}]
  initialState := basic [.globals .state []]
  entry_lt := Nat.zero_lt_two
  successors_lt a b hb := by
    match a with
    | 0 => exact hentry b hb ▸ Nat.one_lt_two
    | 1 => exact absurd hb List.not_mem_nil
    | a + 2 => exact absurd hb List.not_mem_nil
  entry_first a hb := by
    match a with
    | 0 => exact absurd (hentry 0 hb) Nat.zero_ne_one
    | 1 => exact absurd hb List.not_mem_nil
    | a + 2 => exact absurd hb List.not_mem_nil
  acyclic := by
    refine ⟨id, fun a b hb => ?_⟩
    match a with
    | 0 => exact hentry b hb ▸ Nat.zero_lt_one
    | 1 => exact absurd hb List.not_mem_nil
    | a + 2 => exact absurd hb List.not_mem_nil
  initialState_isTidy := rfl
  initialState_nonempty := rfl

section TwoBlocks

variable {entry : BasicBlock} {hentry : ∀ b ∈ entry.terminator.successors, b = 1}

theorem twoBlocks_edge {a b : Nat} (h : (twoBlocks entry hentry).Edge a b) : a = 0 ∧ b = 1 := by
  match a with
  | 0 => exact ⟨rfl, hentry b h⟩
  | 1 => exact absurd h List.not_mem_nil
  | a + 2 => exact absurd h List.not_mem_nil

theorem twoBlocks_hasWalk (hsucc : 1 ∈ entry.terminator.successors) {b : Nat} :
    HasWalk (twoBlocks entry hentry).Edge 0 b ↔ b = 0 ∨ b = 1 := by
  constructor
  · rintro ⟨l, hl⟩
    cases hl with
    | root => exact Or.inl rfl
    | step _ hedge => exact Or.inr (twoBlocks_edge hedge).2
  · rintro (rfl | rfl)
    · exact HasWalk.root
    · exact HasWalk.root.step hsucc

theorem twoBlocks_leadsTo {c : Nat} (h : LeadsTo (twoBlocks entry hentry) c 1) :
    c = 0 ∨ c = 1 := by
  rcases Relation.ReflTransGen.cases_head h with rfl | ⟨d, hedge, -⟩
  · exact Or.inr rfl
  · exact Or.inl (twoBlocks_edge hedge).1

/-- The dominator tree of the two blocks. -/
def twoBlocksTree (hsucc : 1 ∈ entry.terminator.successors) :
    DominatorTree (twoBlocks entry hentry) where
  node
    | 0 => some none
    | 1 => some (some 0)
    | _ => none
  node_eq_none_iff b := by
    rw [twoBlocks_hasWalk hsucc]
    match b with
    | 0 => simp
    | 1 => simp
    | b + 2 => simp
  node_entry := rfl
  isIdom b hb hwalk := by
    obtain rfl : b = 1 := ((twoBlocks_hasWalk hsucc).mp hwalk).resolve_left hb
    refine ⟨0, rfl, Nat.zero_ne_one, Dominates.root 1, fun e he hdom => ?_⟩
    have hmem := hdom [1, 0] (Walk.root.step hsucc)
    rcases List.mem_cons.mp hmem with rfl | hmem
    · exact absurd rfl he
    · obtain rfl := List.mem_singleton.mp hmem
      exact Dominates.refl _

/-- The analyses with every setting off. -/
def plainPass {F : Function} (DT : DominatorTree F) : Pass F where
  DT := DT
  RR := id
  check := fun _ _ => .unknown
  hashMaps := Grouping.singletons Predicate
  checkUnreachable := false
  optimizeStates := false
  doAggressiveChoiceOptimization := false
  assumeDefectsTriggerOnce := false

end TwoBlocks

/-- The term of a flag. -/
def flagTerm : Term := .mk 0 (.value false) .bool "flag" []

/-- An entry block that branches on a flag, to one and the same block. -/
def branching : BasicBlock := { terminator := .condBr flagTerm 1 1 }

theorem branching_successors : ∀ b ∈ branching.terminator.successors, b = 1 := by
  simp [branching, TerminatorInst.successors, DefaultPredicateAnalysis.edgePredicates]

/-- The analyses of a function that branches to one block only. -/
def branchingPass : Pass (twoBlocks branching branching_successors) :=
  plainPass (twoBlocksTree List.mem_cons_self)

/-- Both blocks can be processed. -/
theorem processable_branching {c : Nat}
    (hc : LeadsTo (twoBlocks branching branching_successors) c 1) :
    Processable (twoBlocks branching branching_successors) false c := by
  refine ⟨(twoBlocks_hasWalk List.mem_cons_self).mpr (twoBlocks_leadsTo hc), fun a hpass => ?_⟩
  obtain ⟨rfl, rfl⟩ := twoBlocks_edge hpass.edge
  exact TerminatorInst.noConfusion hpass.terminator

/-- The analyses agree behind a branch. -/
theorem agrees_behind_branch : Agrees branchingPass OneForAll.State.init 1 0 :=
  (agrees_iff rfl Reachable.init ((twoBlocks_hasWalk List.mem_cons_self).mpr (Or.inr rfl))
    (by decide)).mpr ⟨Nat.le_refl 0, fun _ => processable_branching,
    fun h => absurd h Bool.false_ne_true⟩

/-- An entry block with a predicate and an unconditional branch. -/
def passing : BasicBlock := { last := { PM := [flagIs true] }, terminator := .br 1 }

theorem passing_successors : ∀ b ∈ passing.terminator.successors, b = 1 := by
  simp [passing, TerminatorInst.successors]

/-- The analyses of that function. -/
def passingPass : Pass (twoBlocks passing passing_successors) :=
  plainPass (twoBlocksTree List.mem_cons_self)

/-- Behind an unconditional branch the slice assertion fails. -/
theorem slice_assertion_fails : ¬ Agrees passingPass OneForAll.State.init 1 0 := by
  rintro ⟨st', s, hall, -⟩
  have hpass : PassesThrough (twoBlocks passing passing_successors) 0 1 :=
    ⟨rfl, fun phi hphi => absurd hphi List.not_mem_nil, fun c hc => (twoBlocks_edge hc).1⟩
  have hnot : ¬ Processable (twoBlocks passing passing_successors) false 1 := by
    intro h
    cases h.bare 0 hpass with
    | entry _ hquiet =>
        exact absurd (hquiet _ List.mem_cons_self).1 (List.cons_ne_nil _ _)
    | step _ hpass' _ => exact absurd hpass'.edge (Function.not_edge_entry _)
  have hnone := OneForAll.getInstructionState_eq_none (P := passingPass) rfl
    OneForAll.good_init Relation.ReflTransGen.refl hnot Nat.one_lt_two 0
  exact absurd (hnone.symm.trans hall) (Option.some_ne_none _).symm

end Borealis
