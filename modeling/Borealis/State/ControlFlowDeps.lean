import Borealis.State.PredicateState
import Borealis.Term.Predicate

/-!
# Control-flow dependencies

`State/Transformer/ControlFlowDepsTracker.cpp`: a walk over a state that notes, for every
predicate, the path predicates in force where it stands.

The map of the tracker is keyed by the predicate object, its sets compare predicates with
`Predicate::equals`.  A `PredicateObj` is therefore a predicate together with the identity of the
object, and a set of predicates a list read up to `equals`.
-/

namespace Borealis

/-- A predicate object; `addr` is its identity. -/
structure PredicateObj where
  addr : Nat
  pred : Predicate
deriving DecidableEq

/-- `hamt_set<Predicate::Ptr, PredicateHash, PredicateEquals>`. -/
abbrev PredicateSet := List Predicate

namespace PredicateSet

/-- `count`. -/
def count (set : PredicateSet) (p : Predicate) : Bool :=
  set.any fun q => q.equals p

/-- `insert`. -/
def insert (set : PredicateSet) (p : Predicate) : PredicateSet :=
  if set.count p then set else set ++ [p]

/-- `unite`. -/
def unite (set other : PredicateSet) : PredicateSet :=
  other.foldl insert set

end PredicateSet

/-- `ControlFlowDepsTracker`. -/
structure ControlFlowDepsTracker where
  dominatorMap : List (Nat × PredicateSet)
  currentDominators : PredicateSet

namespace ControlFlowDepsTracker

open PredicateState (basic chain choice)

/-- The tracker after `reset`. -/
def reset : ControlFlowDepsTracker :=
  ⟨[], []⟩

/-- `getDominatingPaths`. -/
def getDominatingPaths (CFDT : ControlFlowDepsTracker) (pred : PredicateObj) : PredicateSet :=
  (CFDT.dominatorMap.lookup pred.addr).getD []

/-- `getFinalPaths`. -/
def getFinalPaths (CFDT : ControlFlowDepsTracker) : PredicateSet :=
  CFDT.currentDominators

/-- `transformBase` on a predicate. -/
def transformPredicate (CFDT : ControlFlowDepsTracker) (pred : PredicateObj) :
    ControlFlowDepsTracker :=
  let currentDominators :=
    if pred.pred.getType != .state && pred.pred.getType != .invariant then
      PredicateSet.insert CFDT.currentDominators pred.pred
    else CFDT.currentDominators
  { dominatorMap :=
      (pred.addr, PredicateSet.unite (CFDT.getDominatingPaths pred) currentDominators) ::
        CFDT.dominatorMap
    currentDominators := currentDominators }

mutual
/-- `transform` on a state.  The alternatives of a choice all start from the path predicates in
force before it; behind it those of any alternative are in force. -/
def transform (CFDT : ControlFlowDepsTracker) :
    PredicateState PredicateObj → ControlFlowDepsTracker
  | basic data => data.foldl transformPredicate CFDT
  | chain base curr => transform (transform CFDT base) curr
  | choice choices =>
    transformChoices CFDT.currentDominators CFDT.currentDominators CFDT choices

/-- The loop of `transformChoice`. -/
def transformChoices (currentDominators totalDominators : PredicateSet)
    (CFDT : ControlFlowDepsTracker) :
    List (PredicateState PredicateObj) → ControlFlowDepsTracker
  | [] => { CFDT with currentDominators := totalDominators }
  | branch :: branches =>
    let CFDT' := transform { CFDT with currentDominators := currentDominators } branch
    transformChoices currentDominators
      (PredicateSet.unite totalDominators CFDT'.currentDominators) CFDT' branches
end

end ControlFlowDepsTracker

end Borealis
