import Borealis.State.Unreachable
import Borealis.Util.TopologicalSorter

/-!
# One state for all paths

`OneForAll` computes the state of a block from the state of its immediate dominator: the states of
the predecessors, with the predicates of the edge, are sliced on it, and the slices are the
alternatives of a choice behind it.  Blocks are processed when one of their instructions is asked
for, together with all blocks that lead to it and have not been processed, in topological order.

A failed assertion and a null pointer that is used both end the run, which is `none` here.  A state
that is null is `some none` as long as nothing is done to it.

`RR` is what `Retyper` makes of a predicate, `check` the solver behind `isUnreachableIn`, and
`hashMaps` the order in which unordered maps are walked.
-/

namespace Borealis

open PredicateState PredicateStateBuilder

/-- What the analyses of a function are run with, the settings included. -/
structure Pass (F : Function) where
  DT : DominatorTree F
  RR : Predicate → Predicate
  check : PredicateState Predicate → PredicateState Predicate → CheckResult
  hashMaps : Grouping Predicate
  checkUnreachable : Bool
  optimizeStates : Bool
  doAggressiveChoiceOptimization : Bool
  assumeDefectsTriggerOnce : Bool

/-! ## What both analyses add to a state -/

section Parts

variable (F : Function)

/-- `TPM`: the predicate of an edge. -/
def TPM (predBB BB : Nat) : PredicateState Predicate :=
  basic (DefaultPredicateAnalysis.TPM (F.block predBB).terminator BB).toList

/-- `PPM`: the predicate of a phi node for an incoming block. -/
def PPM (predBB : Nat) (phi : PHINode) : PredicateState Predicate :=
  basic (DefaultPredicateAnalysis.PPM phi predBB).toList

/-- `getBasicBlockIndex` finds the block. -/
def PHINode.hasIncoming (phi : PHINode) (predBB : Nat) : Bool :=
  (phi.incoming.map Prod.fst).contains predBB

/-- The loop over the phi nodes of a block that is entered from `predBB`. -/
def addPhis (predBB BB : Nat) (state : PredicateState Predicate) : PredicateState Predicate :=
  (F.block BB).phis.foldl
    (fun s phi => if phi.hasIncoming predBB then add s (PPM predBB phi) else s) state

end Parts

variable {F : Function} (P : Pass F)

/-- The state behind an instruction, when `instructionState` is the state at it. -/
def afterInstruction (I : Instruction) (instructionState : PredicateState Predicate) :
    PredicateState Predicate :=
  match I.call with
  | some callState => add instructionState callState.1
  | none => instructionState

/-- What happens to a state before it is handed out: `finalizeBasicBlock` of `OneForAll`,
`finalize` of `OneForOne`. -/
def finalizeState (s : PredicateState Predicate) : Option (PredicateState Predicate) :=
  (if P.optimizeStates then StateOptimizer.transform s else some s).map (PredicateState.map P.RR)

namespace OneForAll

/-- The fields of `OneForAll` that change.  The states of the instructions of a block are recorded
together. -/
structure State where
  basicBlockStates : Nat → Option (PredicateState Predicate)
  instructionStates : Nat → Option (List (PredicateState Predicate))

/-- `init`. -/
def State.init : State := ⟨fun _ => none, fun _ => none⟩

/-- The state of a predecessor with the predicates of the edge. -/
def edgeState (predBB BB : Nat) (s : PredicateState Predicate) : PredicateState Predicate :=
  addPhis F predBB BB (add s (TPM F predBB BB))

/-- The choices of `BBM`: the states of the predecessors, sliced on the state of the dominator. -/
def slices (st : State) (base : PredicateState Predicate) (BB : Nat) :
    Option (List (PredicateState Predicate)) :=
  ((F.predecessors BB).filterMap fun predBB =>
    (st.basicBlockStates predBB).map (edgeState (F := F) predBB BB)).mapM
      (sliceOn Predicate.equals base)

/-- `BBM`: the state in which a block is entered. -/
def BBM (st : State) (BB : Nat) : Option (Option (PredicateState Predicate)) :=
  match P.DT.node BB with
  | none => none
  | some none => some (some F.initialState)
  | some (some idomBB) =>
    match st.basicBlockStates idomBB with
    | none => some none
    | some base =>
      (slices (F := F) st base BB).bind fun choices =>
      (if P.doAggressiveChoiceOptimization then
        optimizeChoices Predicate.equals P.hashMaps .doNotOptimizeSubs (weightAll choices + 1) []
          choices
      else some choices).map fun choices =>
        if choices.isEmpty then none else some (add base (PredicateStateFactory.choice choices))

/-- The state that the instruction behind `I` is entered in. -/
def nextState (I : Instruction) (instructionState : PredicateState Predicate) :
    PredicateState Predicate :=
  if P.assumeDefectsTriggerOnce then add (afterInstruction I instructionState) (basic I.PostPM)
  else afterInstruction I instructionState

/-- The loop over the instructions of a block: the state at each of them, and the state at the
end. -/
def instructionLoop : PredicateState Predicate → List Instruction →
    List (PredicateState Predicate) × PredicateState Predicate
  | inState, [] => ([], inState)
  | inState, I :: rest =>
    let instructionState := add inState (basic I.PM)
    let result := instructionLoop (nextState P I instructionState) rest
    (instructionState :: result.1, result.2)

/-- `processBasicBlock`. -/
def processBasicBlock (st : State) (BB : Nat) : Option State :=
  (BBM P st BB).map fun inState =>
    match inState with
    | none => st
    | some inState =>
      if P.checkUnreachable && isUnreachableIn P.check inState then st
      else
        let result := instructionLoop P inState (F.block BB).instructions
        { basicBlockStates := Function.update st.basicBlockStates BB (some result.2)
          instructionStates := Function.update st.instructionStates BB (some result.1) }

/-- `finalizeBasicBlock`: a state that is null cannot be transformed. -/
def finalizeBasicBlock (st : State) (BB : Nat) : Option State :=
  (st.instructionStates BB).bind fun states =>
    (states.mapM (finalizeState P)).map fun finalized =>
      { st with instructionStates := Function.update st.instructionStates BB (some finalized) }

/-- The loop of `getInstructionState` that collects the blocks to be processed. -/
def activeBlocks (F : Function) (st : State) : Nat → List Nat → List Nat → Option (List Nat)
  | _, [], active => some active
  | 0, _ :: _, _ => none
  | fuel + 1, curr :: working, active =>
    if curr ∈ active then activeBlocks F st fuel working active
    else
      activeBlocks F st fuel
        (working ++ (F.predecessors curr).filter fun predBB =>
          (st.instructionStates predBB).isNone)
        (curr :: active)

/-- The number of edges, each of which is looked at once at most. -/
def edgeCount (F : Function) : Nat :=
  ((List.range F.blocks.length).map fun b => (F.predecessors b).length).sum

/-- The order that `runOnFunction` computes, with its two assertions. -/
def TO (F : Function) : Option (List Nat) :=
  (TopologicalSorter.doit F).bind fun ordered =>
    if ordered.length = F.blocks.length then some ordered else none

/-- One block in the loop of `getInstructionState`. -/
def process (st : State) (BB : Nat) : Option State :=
  (processBasicBlock P st BB).bind fun st => finalizeBasicBlock P st BB

/-- `getInstructionState` for the instruction at position `k` of the block `BB`. -/
def getInstructionState (st : State) (BB k : Nat) : Option (State × PredicateState Predicate) :=
  match st.instructionStates BB with
  | some states => states[k]?.map fun s => (st, s)
  | none =>
    (activeBlocks F st (edgeCount F + 1) [BB] []).bind fun active =>
    (TO F).bind fun order =>
    ((order.filter fun b => active.contains b).foldlM (process P) st).bind fun st' =>
    (st'.instructionStates BB).bind fun states => states[k]?.map fun s => (st', s)

end OneForAll

end Borealis
