import Borealis.Lib.Dominance
import Borealis.State.StateOptimizer
import Borealis.Term.Predicate

/-!
# Functions and their predicates

The part of an LLVM function that the predicate state analyses read: its basic blocks with their
phi nodes, the predicates that `DefaultPredicateAnalysis` and `AnnotationPredicateAnalysis` have
recorded for its instructions, and its terminators.  A block is its position in the function, and
the entry block is the first one.  Terminators other than branches, switches and those without
successors have no case in `OneForOne` and no visitor in the predicate analyses, and are left out.

`DefaultPredicateAnalysis` records the predicate of an edge under the key (terminator, successor),
in the order in which it visits the edges, so of several edges to one block the last one stays
(`TPM_of_last`).
-/

namespace Borealis

open PredicateState

/-- `TermFactory::getBooleanTerm`. -/
def getBooleanTerm (b : Bool) : Term :=
  .mk 0 (.opaqueBoolConstant b) .bool (if b then "true" else "false") []

/-- `llvm::TerminatorInst`; conditions and case values are given by their terms. -/
inductive TerminatorInst where
  | noSuccessor
  | br (succ : Nat)
  | condBr (cond : Term) (trueSucc falseSucc : Nat)
  | switch (cond : Term) (cases : List (Term × Nat)) (defaultDest : Nat)

/-- `llvm::PHINode`: its own term, and its incoming blocks with the terms of the values. -/
structure PHINode where
  value : Term
  incoming : List (Nat × Term)

/-- `llvm::Instruction`: its entries in `PM` and `PostPM`, and the instantiated body and ensures
of the callee if it is a call. -/
structure Instruction where
  PM : List Predicate := []
  PostPM : List Predicate := []
  call : Option { s : PredicateState Predicate // s.isTidy = true } := none

/-- `llvm::BasicBlock`.  `last` is the terminator in its part as an instruction. -/
structure BasicBlock where
  phis : List PHINode := []
  body : List Instruction := []
  last : Instruction := {}
  terminator : TerminatorInst := .noSuccessor

/-- The instructions of a block.  The predicate analyses record nothing for a phi node but its
entries in `PPM`. -/
def BasicBlock.instructions (BB : BasicBlock) : List Instruction :=
  BB.phis.map (fun _ => { PM := [] }) ++ (BB.body ++ [BB.last])

/-! ## The maps of the predicate analyses -/

namespace DefaultPredicateAnalysis

/-- `operator[]` and an assignment on one of the maps, for one entry after the other. -/
def write {K : Type} [DecidableEq K] (entries : List (K × Predicate))
    (map : K → Option Predicate) : K → Option Predicate :=
  entries.foldl (fun m e => Function.update m e.1 (some e.2)) map

/-- The entries that `visitBranchInst` and `visitSwitchInst` write for a terminator. -/
def edgePredicates : TerminatorInst → List (Nat × Predicate)
  | .noSuccessor => []
  | .br _ => []
  | .condBr cond trueSucc falseSucc =>
    [(trueSucc, .equality .path cond (getBooleanTerm true)),
      (falseSucc, .equality .path cond (getBooleanTerm false))]
  | .switch cond cases defaultDest =>
    cases.map (fun c => (c.2, .equality .path cond c.1)) ++
      [(defaultDest, .defaultSwitchCase .path cond (cases.map Prod.fst))]

/-- The entries of `TPM` whose terminator is the given one. -/
def TPM (I : TerminatorInst) : Nat → Option Predicate :=
  write (edgePredicates I) fun _ => none

/-- The entries of `PPM` whose phi node is the given one: `visitPHINode`. -/
def PPM (phi : PHINode) : Nat → Option Predicate :=
  write (phi.incoming.map fun e => (e.1, .equality .state phi.value e.2)) fun _ => none

section Write

variable {K : Type} [DecidableEq K]

theorem write_append (xs ys : List (K × Predicate)) (map : K → Option Predicate) :
    write (xs ++ ys) map = write ys (write xs map) := List.foldl_append

/-- A key that is not written keeps its value. -/
theorem write_of_notMem {entries : List (K × Predicate)} {k : K}
    (hk : k ∉ entries.map Prod.fst) (map : K → Option Predicate) :
    write entries map k = map k := by
  induction entries generalizing map with
  | nil => rfl
  | cons e entries ih =>
      rw [List.map_cons, List.mem_cons, not_or] at hk
      exact (ih hk.2 _).trans (Function.update_of_ne hk.1 _ _)

/-- **The last entry with a key is the one that stays.** -/
theorem write_last {xs ys : List (K × Predicate)} {k : K} {p : Predicate}
    (hk : k ∉ ys.map Prod.fst) (map : K → Option Predicate) :
    write (xs ++ (k, p) :: ys) map k = some p := by
  rw [write_append]
  exact (write_of_notMem hk _).trans (Function.update_self _ _ _)

/-- What is found under a key was written there, or was there before. -/
theorem mem_of_write {entries : List (K × Predicate)} {map : K → Option Predicate} {k : K}
    {p : Predicate} (h : write entries map k = some p) : (k, p) ∈ entries ∨ map k = some p := by
  induction entries generalizing map with
  | nil => exact Or.inr h
  | cons e entries ih =>
      rcases ih h with hmem | hmap
      · exact Or.inl (List.mem_cons_of_mem e hmem)
      · rcases eq_or_ne k e.1 with rfl | hne
        · have hself := hmap.symm.trans (Function.update_self e.1 (some e.2) map)
          rw [Option.some.inj hself]
          exact Or.inl List.mem_cons_self
        · exact Or.inr ((Function.update_of_ne hne (some e.2) map).symm.trans hmap)

theorem write_singleton (e : K × Predicate) (map : K → Option Predicate) :
    write [e] map = Function.update map e.1 (some e.2) := rfl

/-- Nothing is found under a key exactly when it was not written. -/
theorem write_eq_none_iff {entries : List (K × Predicate)} {k : K} :
    write entries (fun _ => none) k = none ↔ k ∉ entries.map Prod.fst := by
  refine ⟨fun hnone => ?_, fun hk => write_of_notMem hk _⟩
  induction entries using List.reverseRecOn with
  | nil => exact List.not_mem_nil
  | append_singleton entries last ih =>
      rw [write_append, write_singleton] at hnone
      rw [List.map_append, List.mem_append, not_or]
      rcases eq_or_ne k last.1 with rfl | hne
      · rw [Function.update_self] at hnone
        exact absurd hnone (Option.some_ne_none _)
      · rw [Function.update_of_ne hne] at hnone
        exact ⟨ih hnone, fun hk => hne (List.mem_singleton.mp hk)⟩

end Write

end DefaultPredicateAnalysis

open DefaultPredicateAnalysis

/-- `getSuccessor` for all indices, in the order the visitors go through them. -/
def TerminatorInst.successors : TerminatorInst → List Nat
  | .br succ => [succ]
  | I => (edgePredicates I).map Prod.fst

/-- Either the one edge is unconditional, or every edge has a predicate. -/
theorem TerminatorInst.successors_cases (I : TerminatorInst) :
    (∃ succ, I = .br succ) ∨ I.successors = (edgePredicates I).map Prod.fst := by
  cases I with
  | br succ => exact Or.inl ⟨succ, rfl⟩
  | noSuccessor => exact Or.inr rfl
  | condBr cond trueSucc falseSucc => exact Or.inr rfl
  | switch cond cases defaultDest => exact Or.inr rfl

/-! ## The control flow graph -/

/-- The successors of a block, by its position. -/
def successorsOf (blocks : List BasicBlock) (a : Nat) : List Nat :=
  (blocks.getD a {}).terminator.successors

/-- `llvm::Function`, with an acyclic control flow graph.  `initialState` is what the analyses
start with: the globals, behind a marker predicate that is always there, and the requires. -/
structure Function where
  blocks : List BasicBlock
  initialState : PredicateState Predicate
  entry_lt : 0 < blocks.length
  successors_lt : ∀ a, ∀ b ∈ successorsOf blocks a, b < blocks.length
  entry_first : ∀ a, 0 ∉ successorsOf blocks a
  acyclic : ∃ rank : Nat → Nat, ∀ a, ∀ b ∈ successorsOf blocks a, rank a < rank b
  initialState_isTidy : initialState.isTidy = true
  initialState_nonempty : initialState.isEmpty = false

namespace Function

variable (F : Function)

/-- The block at a position. -/
def block (b : Nat) : BasicBlock := F.blocks.getD b {}

/-- The successors of a block. -/
def successors (a : Nat) : List Nat := (F.block a).terminator.successors

/-- An edge of the control flow graph. -/
def Edge (a b : Nat) : Prop := b ∈ F.successors a

/-- `pred_begin`, `pred_end`: a predecessor for every edge. -/
def predecessors (b : Nat) : List Nat :=
  (List.range F.blocks.length).flatMap fun a =>
    ((F.successors a).filter fun c => c == b).map fun _ => a

variable {F}

theorem edge_lt {a b : Nat} (h : F.Edge a b) : a < F.blocks.length ∧ b < F.blocks.length := by
  refine ⟨?_, F.successors_lt a b h⟩
  by_contra hge
  have hnone : F.blocks[a]? = none := List.getElem?_eq_none (Nat.le_of_not_lt hge)
  simp [Edge, successors, block, hnone, TerminatorInst.successors, edgePredicates] at h

theorem mem_predecessors {a b : Nat} : a ∈ F.predecessors b ↔ F.Edge a b := by
  simp only [predecessors, List.mem_flatMap, List.mem_range, List.mem_map, List.mem_filter,
    beq_iff_eq]
  constructor
  · rintro ⟨c, -, d, ⟨hd, rfl⟩, rfl⟩
    exact hd
  · intro h
    exact ⟨a, (edge_lt h).1, b, ⟨h, rfl⟩, rfl⟩

theorem not_edge_entry (a : Nat) : ¬ F.Edge a 0 := F.entry_first a

end Function

/-- `llvm::DominatorTree`: `node` is null for a block that cannot be reached from the entry, and
the node of the entry has no immediate dominator. -/
structure DominatorTree (F : Function) where
  node : Nat → Option (Option Nat)
  node_eq_none_iff : ∀ b, node b = none ↔ ¬ Lib.HasWalk F.Edge 0 b
  node_entry : node 0 = some none
  isIdom : ∀ b, b ≠ 0 → Lib.HasWalk F.Edge 0 b →
    ∃ d, node b = some (some d) ∧ Lib.IsIdom F.Edge 0 d b

end Borealis
