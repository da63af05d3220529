import Borealis.PredicateStateAnalysis.Entering
import Borealis.State.Cropper
import Borealis.State.Maps

/-!
# The top-down analysis

`OneForAllTD` builds one state for a whole function, from the entry downwards: behind a block comes
a choice of the ways to its immediate post-dominator, and behind the choice the state of that
block.  The state of an instruction is the final state, cropped behind the last predicate of the
instruction; an instruction without predicates gets a mark for this, and the marks are erased in
the end.

`stateBetween` and `basicPSFor` keep what they have computed, which changes no result.  The blocks
are acyclic here, and the recursion follows the edges; it is cut off by a fuel.  A failed assertion
and a cast that is undefined end the run, which is `none`.
-/

namespace Borealis

open PredicateState PredicateStateBuilder

/-! ## Post-dominators -/

/-- The control flow graph, turned round.  `none` stands for the virtual root of the tree, whose
block is null: behind it are the blocks without successors. -/
inductive ReverseEdge (F : Function) : Option Nat → Option Nat → Prop
  | exit {b : Nat} : b < F.blocks.length → F.successors b = [] → ReverseEdge F none (some b)
  | edge {a b : Nat} : F.Edge a b → ReverseEdge F (some b) (some a)

/-- `llvm::PostDominatorTree`: `getIDom` of the blocks of a function. -/
structure PostDominatorTree (F : Function) where
  getIDom : Nat → Option Nat
  isIdom : ∀ b, b < F.blocks.length → Lib.IsIdom (ReverseEdge F) none (getIDom b) (some b)

namespace OneForAllTD

/-! ## The predicates of a block -/

section Blocks

variable (F : Function) (address : Nat → Nat → Int)

/-- The mark of an instruction: its address as a constant. -/
def markOf (BB k : Nat) : Predicate :=
  .mark .state (.mk 0 (.opaqueIntConstant (address BB k)) .unknownType (toString (address BB k)) [])

/-- What `basicPSFor` takes for the predicates of the instruction at position `k`; post-predicates
are not looked at. -/
def marked (BB k : Nat) (I : Instruction) : Instruction :=
  { PM := if I.PM.isEmpty then [markOf address BB k] else I.PM, PostPM := [], call := I.call }

/-- The instructions of a block with their marks. -/
def markedInstructions (BB : Nat) : List Instruction :=
  (F.block BB).instructions.mapIdx fun k I => marked address BB k I

/-- `backmapping`: the last predicate of an instruction, once `basicPSFor` has been called for its
block. -/
def backmapping (BB k : Nat) : Option Predicate :=
  ((markedInstructions F address BB)[k]?).bind fun I => I.PM.getLast?

/-- The state of one instruction in `basicPSFor`. -/
def instructionState (I : Instruction) : PredicateState Predicate :=
  afterInstruction I (I.PM.foldl (fun s pred => add s (basic [pred])) (basic []))

/-- `basicPSFor`. -/
def basicPSFor (BB : Nat) : PredicateState Predicate :=
  (markedInstructions F address BB).foldl (fun res I => add res (instructionState I)) (basic [])

end Blocks

variable {F : Function} (DT : PostDominatorTree F) (address : Nat → Nat → Int)

/-- The alternative for one successor, when `between` is the state behind it. -/
def succState (BB succ : Nat) (between : PredicateState Predicate) : PredicateState Predicate :=
  add (add (add (basic []) (TPM F BB succ))
    (basic ((F.block succ).phis.flatMap fun phi =>
      (DefaultPredicateAnalysis.PPM phi BB).toList))) between

/-- The switch over the number of alternatives. -/
def addChoices (res : PredicateState Predicate) :
    List (PredicateState Predicate) → PredicateState Predicate
  | [] => res
  | choices => add res (PredicateStateFactory.choice choices)

/-- `stateBetween`: from `BB`, inclusive, to `Dom`, which is not included; null means the end of the
function. -/
def stateBetween : Nat → Option Nat → Option Nat → Option (PredicateState Predicate)
  | 0, _, _ => none
  | _ + 1, none, _ => none
  | fuel + 1, some BB, Dom =>
    if Dom = some BB then some (basic [])
    else
      ((F.successors BB).mapM fun succ =>
          (stateBetween fuel (some succ) (DT.getIDom BB)).map (succState (F := F) BB succ)).bind
        fun choices =>
          let res := addChoices (basicPSFor F address BB) choices
          if DT.getIDom BB ≠ Dom then
            (stateBetween fuel (DT.getIDom BB) Dom).map fun rest => add res rest
          else some res

attribute [local simp] stateBetween

/-- `finalState`, as `runOnFunction` computes it. -/
def finalState (fuel : Nat) : Option (PredicateState Predicate) :=
  (stateBetween DT address fuel (some 0) none).bind fun body =>
    StateOptimizer.transform (add F.initialState body)

/-- The predicate is a mark. -/
def isMark : Predicate → Bool
  | .mark _ _ => true
  | _ => false

/-- `MarkEraser::transform`. -/
def eraseMarks (s : PredicateState Predicate) : PredicateState Predicate :=
  s.filterMap fun p => if isMark p then none else some p

/-- `getInstructionState`: the final state, cropped and without marks, is finished like the states of
the other analyses. -/
def getInstructionState (P : Pass F) (fuel BB k : Nat) : Option (PredicateState Predicate) :=
  (finalState DT address fuel).bind fun s =>
    (backmapping F address BB k).bind fun lastPred =>
      finalizeState P (eraseMarks (Cropper.cropStateOn (fun pred => pred.equals lastPred) s))

end OneForAllTD

/-! ## Paths between blocks -/

/-- The predicates on the way from a block, inclusive, to another one, which is not included; or to
the end of the function.  `M` gives the instructions of the blocks. -/
inductive Between (F : Function) (M : Nat → List Instruction) :
    Nat → Option Nat → List Predicate → Prop
  | done {b : Nat} : Between F M b (some b) []
  | exit {b : Nat} {q : List Predicate} : F.successors b = [] → q ∈ blockLanguage false (M b) →
      Between F M b none q
  | step {b c : Nat} {target : Option Nat} {q p : List Predicate} :
      q ∈ blockLanguage false (M b) → F.Edge b c → Between F M c target p →
        Between F M b target (q ++ (edgePart F b c ++ p))

/-- The language of these paths. -/
def between (F : Function) (M : Nat → List Instruction) (b : Nat) (target : Option Nat) :
    Language Predicate := {p | Between F M b target p}

end Borealis
