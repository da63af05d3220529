import Borealis.State.Maps
import Borealis.State.Paths
import Borealis.State.ControlFlowDeps
import Mathlib

/-!
# Slicing of predicate states

`State/Transformer/StateSlicer.cpp`: a backward walk over a state that keeps the predicates the
query may depend on, by variable, by pointer or by control flow, and replaces the others by null.
The nulls are filtered out afterwards and the result is simplified.

The alias analysis is a parameter: `AA` answers after `prepare` on the query and the state.  The
cache of `CachingTransformer` is left out: its keys are state objects, and `reverse` has just
made every object of the state anew, so that none is met twice.

## Strategy

Dropping predicates makes a state weaker, and so does everything the walk itself does
(`holds_transformState`); what the predicates are dropped for does not matter.  What can make the
state stronger is `simplify`, which the slicer calls on every choice before it walks through it
and on the result.  There an alternative that has lost all its predicates is true, and
`PredicateStateChoice::simplify` drops it like one that is false.
-/

namespace Borealis

open PredicateState (basic chain choice)

/-- A term of pointer type. -/
def isPointerTerm (t : Term) : Bool :=
  match t.getType with
  | .pointer _ _ => true
  | _ => false

/-- A term whose value the slicer follows: a named term or a cast. -/
def isInterestingTerm (t : Term) : Bool :=
  t.isNamedTerm ||
    match t.cls with
    | .cast _ => true
    | _ => false

/-- The interesting terms inside a term. -/
def interestingTerms (t : Term) : List Term :=
  t.getFullTermSet.filter isInterestingTerm

/-- The part of `StateSlicer` that changes during the walk. -/
structure StateSlicer where
  sliceVars : List Term
  slicePtrs : List Term
  currentPathDeps : PredicateSet

namespace StateSlicer

/-- `addSliceTerm`. -/
def addSliceTerm (S : StateSlicer) (term : Term) : StateSlicer :=
  if isPointerTerm term then { S with slicePtrs := Term.insert S.slicePtrs term }
  else { S with sliceVars := Term.insert S.sliceVars term }

/-- `addSliceTerm` for each term of a set. -/
def addSliceTerms (S : StateSlicer) (terms : List Term) : StateSlicer :=
  terms.foldl addSliceTerm S

/-- `init`: the query's terms are relevant. -/
def init (query : PredicateState PredicateObj) : StateSlicer :=
  let terms := query.preds.flatMap fun p => p.pred.getOperands.flatMap Term.collected
  addSliceTerms ⟨[], [], []⟩ ((terms.foldl Term.insert []).filter isInterestingTerm)

/-! ## Relevance of a predicate -/

/-- `checkVars`. -/
def checkVars (S : StateSlicer) (lhv rhv : List Term) : Bool × StateSlicer :=
  if (lhv.filter fun t => !isPointerTerm t).any (Term.contains S.sliceVars) then
    (true, S.addSliceTerms rhv)
  else (false, S)

/-- The predicates that write memory through their left-hand side. -/
def writesThrough : Predicate → Bool
  | .store .. | .writeBound .. | .writeProperty .. | .alloca .. | .malloc .. | .seqData ..
  | .seqDataZero .. => true
  | _ => false

variable (mayAlias : Term → Term → Bool)

/-- `checkPtrs`. -/
def checkPtrs (S : StateSlicer) (pred : Predicate) (lhv rhv : List Term) : Bool × StateSlicer :=
  if lhv.isEmpty then (false, S)
  else if (lhv.filter isPointerTerm).any (Term.contains S.slicePtrs) then
    (true, S.addSliceTerms rhv)
  else if writesThrough pred &&
      (lhv.filter isPointerTerm).any fun a => S.slicePtrs.any fun b => mayAlias a b then
    (true, (S.addSliceTerms lhv).addSliceTerms rhv)
  else (false, S)

variable (CFDT : ControlFlowDepsTracker)

/-- `addControlFlowDeps`. -/
def addControlFlowDeps (S : StateSlicer) (pred : PredicateObj) : StateSlicer :=
  { S with currentPathDeps := CFDT.getDominatingPaths pred }

/-- `transformBase` on a predicate; `none` is the null pointer. -/
def transformPredicate (S : StateSlicer) (pred : PredicateObj) :
    Option Predicate × StateSlicer :=
  match pred.pred with
  | .globals _ terms =>
    let data := terms.filter (Term.contains S.slicePtrs)
    if data.isEmpty then (none, S) else (some (.globals .state data), S)
  | _ =>
    if pred.pred.getType != .state && pred.pred.getType != .invariant then
      if S.currentPathDeps.count pred.pred &&
          !pred.pred.inverse.any S.currentPathDeps.count then
        let S := pred.pred.getOperands.foldl (fun S e => S.addSliceTerms (interestingTerms e)) S
        (some pred.pred, S.addControlFlowDeps CFDT pred)
      else (none, S)
    else
      let lhvTerms :=
        match pred.pred.getReceiver with
        | some lhv => (interestingTerms lhv).foldl Term.insert []
        | none => []
      let rhvTerms :=
        ((pred.pred.getOperands.drop 1).flatMap interestingTerms).foldl Term.insert []
      let (asVar, S) := S.checkVars lhvTerms rhvTerms
      let (asPointer, S) := S.checkPtrs mayAlias pred.pred lhvTerms rhvTerms
      if asVar || asPointer then (some pred.pred, S.addControlFlowDeps CFDT pred)
      else (none, S)

/-- `transformBase` on each predicate of a basic state. -/
def transformPredicates (S : StateSlicer) :
    List PredicateObj → List (Option Predicate) × StateSlicer
  | [] => ([], S)
  | p :: ps =>
    let (q, S) := S.transformPredicate mayAlias CFDT p
    let (qs, S) := S.transformPredicates ps
    (q :: qs, S)

/-! ## The walk -/

variable (matcher : List (PredicateState PredicateObj) → Bool)

mutual
/-- `transformBase` on a state, with `transformChoice`. -/
def transformState (S : StateSlicer) :
    PredicateState PredicateObj → PredicateState (Option Predicate) × StateSlicer
  | basic data =>
    let (res, S) := S.transformPredicates mayAlias CFDT data
    (basic res, S)
  | chain base curr =>
    let (newBase, S) := S.transformState base
    let (newCurr, S) := S.transformState curr
    (chain newBase newCurr, S)
  | choice choices =>
    match _h : PredicateState.simplify matcher (choice choices) with
    | choice alts =>
      let (res, T) := S.transformChoices S.currentPathDeps alts
      (choice res, { T with currentPathDeps := S.currentPathDeps })
    | basic data =>
      let (res, S) := S.transformPredicates mayAlias CFDT data
      (basic res, S)
    | chain base curr => S.transformState (chain base curr)
termination_by s => 2 * s.nodes
decreasing_by
  · rw [PredicateState.nodes]; omega
  · rw [PredicateState.nodes]; omega
  · have := PredicateState.nodes_simplify_le matcher (choice choices)
    rw [_h, PredicateState.nodes] at this
    omega
  · have := PredicateState.nodes_simplify_choice_lt matcher choices
      (by rw [_h]; intro alts halts; cases halts)
    rw [_h] at this
    omega

/-- The alternatives of a choice, each from the same control-flow dependencies. -/
def transformChoices (S : StateSlicer) (savedPathDeps : PredicateSet) :
    List (PredicateState PredicateObj) → List (PredicateState (Option Predicate)) × StateSlicer
  | [] => ([], S)
  | st :: sts =>
    let (res, S) := { S with currentPathDeps := savedPathDeps }.transformState st
    let (rest, S) := S.transformChoices savedPathDeps sts
    (res :: rest, S)
termination_by sts => 2 * PredicateState.nodesAll sts + 1
decreasing_by
  · rw [PredicateState.nodesAll]; omega
  · have := st.nodes_pos
    rw [PredicateState.nodesAll]; omega
end

/-! ## The walk only weakens -/

/-- The value of a predicate that may be null: a null is true. -/
def valueOf (v : Predicate → Bool) (p : Option Predicate) : Bool :=
  p.elim true v

/-- A valuation that reads a predicate about globals as a conjunction over them: it stays true
for fewer globals. -/
def ReadsGlobals (v : Predicate → Bool) : Prop :=
  ∀ type terms data, data.Sublist terms → v (.globals type terms) = true →
    v (.globals .state data) = true

variable {mayAlias CFDT matcher}

/-- A predicate is kept, weakened to the relevant globals, or becomes null. -/
theorem value_transformPredicate {v : Predicate → Bool} (hv : ReadsGlobals v) (S : StateSlicer)
    {p : PredicateObj} (hp : v p.pred = true) :
    valueOf v (S.transformPredicate mayAlias CFDT p).1 = true := by
  unfold transformPredicate
  split
  · next type terms hglobals =>
      dsimp only
      split
      · rfl
      · rw [hglobals] at hp
        exact hv type terms _ List.filter_sublist hp
  · split
    · split
      · exact hp
      · rfl
    · -- whatever the receiver is, the predicate is kept or null
      split
      · dsimp only
        split
        · exact hp
        · rfl
      · dsimp only
        split
        · exact hp
        · rfl

theorem all_transformPredicates {v : Predicate → Bool} (hv : ReadsGlobals v) (S : StateSlicer)
    {ps : List PredicateObj} (hps : ps.all (fun p => v p.pred) = true) :
    (S.transformPredicates mayAlias CFDT ps).1.all (valueOf v) = true := by
  induction ps generalizing S with
  | nil => rfl
  | cons p ps ih =>
      rw [List.all_cons, Bool.and_eq_true] at hps
      unfold transformPredicates
      rw [List.all_cons, value_transformPredicate hv S hps.1, ih _ hps.2, Bool.and_self]

/-- An alternative that holds is transformed into one that holds. -/
theorem any_transformChoices {v : Predicate → Bool} {sts : List (PredicateState PredicateObj)}
    (hsts : ∀ st ∈ sts, ∀ S : StateSlicer, st.holds (fun p => v p.pred) = true →
      (S.transformState mayAlias CFDT matcher st).1.holds (valueOf v) = true)
    (saved : PredicateSet) (S : StateSlicer)
    (hany : sts.any (PredicateState.holds fun p => v p.pred) = true) :
    (S.transformChoices mayAlias CFDT matcher saved sts).1.any
      (PredicateState.holds (valueOf v)) = true := by
  induction sts generalizing S with
  | nil => exact absurd hany Bool.false_ne_true
  | cons st sts ih =>
      rw [List.any_cons, Bool.or_eq_true] at hany
      unfold transformChoices
      dsimp only
      rw [List.any_cons, Bool.or_eq_true]
      rcases hany with hst | hany
      · exact Or.inl (hsts st List.mem_cons_self _ hst)
      · exact Or.inr (ih (fun d hd => hsts d (List.mem_cons_of_mem _ hd)) _ hany)

variable {complementary : PredicateObj → PredicateObj → Prop}

/-- **The relevance walk only weakens a state**, whatever it finds relevant, as long as the
choices it simplifies on its way lose nothing. -/
theorem holds_transformState
    (hmatcher : PredicateState.MatchesComplementaryPairs matcher complementary)
    {v : Predicate → Bool} (hv : ReadsGlobals v) (S : StateSlicer)
    {s : PredicateState PredicateObj} (hs : PredicateState.ChoicesKept complementary s)
    (hholds : s.holds (fun p => v p.pred) = true) :
    (S.transformState mayAlias CFDT matcher s).1.holds (valueOf v) = true := by
  -- the walk descends into simplified choices, so the induction is on the number of objects
  induction hn : s.nodes using Nat.strongRecOn generalizing s S with
  | ind n ih =>
      subst hn
      cases s with
      | basic data =>
          unfold transformState
          rw [PredicateState.holds_basic] at hholds ⊢
          exact all_transformPredicates hv S hholds
      | chain base curr =>
          rw [PredicateState.holds_chain, Bool.and_eq_true] at hholds
          unfold transformState
          dsimp only
          rw [PredicateState.holds_chain, Bool.and_eq_true]
          constructor
          · exact ih _ (by rw [PredicateState.nodes]; omega) S hs.1 hholds.1 rfl
          · exact ih _ (by rw [PredicateState.nodes]; omega) _ hs.2 hholds.2 rfl
      | choice choices =>
          have hsimp := PredicateState.holds_simplify_of_holds hmatcher _ hs hholds
          have hkept := PredicateState.choicesKept_simplify hmatcher hs
          have hle := PredicateState.nodes_simplify_le matcher (choice choices)
          unfold transformState
          split
          · next alts halts =>
              rw [halts] at hsimp hkept hle
              rw [PredicateState.nodes] at hle
              dsimp only
              rw [PredicateState.holds_choice] at hsimp ⊢
              refine any_transformChoices (fun st hst T hst' => ?_) _ S hsimp
              have := PredicateState.nodes_le_nodesAll hst
              exact ih _ (by omega) T
                ((PredicateState.choicesKeptAll_iff complementary).mp hkept.1 st hst) hst' rfl
          · next data hdata =>
              rw [hdata, PredicateState.holds_basic] at hsimp
              dsimp only
              rw [PredicateState.holds_basic]
              exact all_transformPredicates hv S hsimp
          · next base curr hchain =>
              have hlt := PredicateState.nodes_simplify_choice_lt matcher choices
                (by rw [hchain]; intro alts halts; cases halts)
              rw [hchain] at hsimp hkept hlt
              exact ih _ hlt S hkept hsimp rfl

/-! ## The slicer -/

/-- The pattern of `PredicateStateChoice::simplify` on states of predicate objects. -/
def pairOfObjects (pairs : List (PredicateState Predicate) → Bool)
    (states : List (PredicateState PredicateObj)) : Bool :=
  pairs (states.map (PredicateState.filterMap fun p => some p.pred))

/-- What the walk leaves of a state, the nulls filtered out, in the original order. -/
def sliced (pairs : List (PredicateState Predicate) → Bool)
    (AA : PredicateState PredicateObj → Term → Term → Bool)
    (query ps : PredicateState PredicateObj) : PredicateState Predicate :=
  let CFDT := ControlFlowDepsTracker.reset.transform ps
  let S := { init query with currentPathDeps := CFDT.getFinalPaths }
  let mayAlias := AA (PredicateStateFactory.chain query ps)
  ((S.transformState mayAlias CFDT (pairOfObjects pairs) ps.reverse).1.filterMap id).reverse

/-- `StateSlicer(query).transform`. -/
def transform (pairs : List (PredicateState Predicate) → Bool)
    (AA : PredicateState PredicateObj → Term → Term → Bool)
    (query ps : PredicateState PredicateObj) : PredicateState Predicate :=
  (sliced pairs AA query ps).simplify pairs

/-- Two predicate objects that say the opposite of each other. -/
def OppositeObjects (p q : PredicateObj) : Prop :=
  Predicate.Complementary p.pred q.pred

theorem eq_basic_of_filterMap {s : PredicateState PredicateObj} {p : Predicate}
    (h : (s.filterMap fun p => some p.pred) = basic [p]) : ∃ q : PredicateObj,
      s = basic [q] ∧ q.pred = p := by
  cases s with
  | basic data =>
      have hmap : data.filterMap (fun p => some p.pred) = data.map PredicateObj.pred := by
        rw [← List.filterMap_eq_map]
        rfl
      rw [PredicateState.filterMap, PredicateState.basic.injEq, hmap] at h
      obtain ⟨q, rest, rfl, hq, hrest⟩ := List.map_eq_cons_iff.mp h
      obtain rfl : rest = [] := List.map_eq_nil_iff.mp hrest
      exact ⟨q, rfl, hq⟩
  | chain base curr => cases h
  | choice choices => cases h

theorem pairOfObjects_matches {pairs : List (PredicateState Predicate) → Bool}
    (hpairs : PredicateState.MatchesComplementaryPairs pairs Predicate.Complementary) :
    PredicateState.MatchesComplementaryPairs (pairOfObjects pairs) OppositeObjects := by
  intro states hmatch
  obtain ⟨p, q, hmap, hcomp⟩ := hpairs _ hmatch
  obtain ⟨s, rest, rfl, hs, hrest⟩ := List.map_eq_cons_iff.mp hmap
  obtain ⟨t, rest', rfl, ht, hnil⟩ := List.map_eq_cons_iff.mp hrest
  obtain rfl : rest' = [] := List.map_eq_nil_iff.mp hnil
  obtain ⟨p', rfl, rfl⟩ := eq_basic_of_filterMap hs
  obtain ⟨q', rfl, rfl⟩ := eq_basic_of_filterMap ht
  exact ⟨p', q', rfl, hcomp⟩

/-- The assignment `name = 1`. -/
def assignOne (name : String) : Predicate :=
  .equality .state (.mk 0 .opaqueVar (.integer 32 .signed) name [])
    (.mk 0 (.opaqueIntConstant 1) (.integer 32 .signed) "1" [])

/-- The query about `x` of the examples. -/
def aboutX : PredicateState PredicateObj :=
  basic [⟨0, assignOne "x"⟩]

/-- The valuation in which `flag` is true and only `y` has been assigned. -/
def onlyY (p : Predicate) : Bool :=
  p == PredicateState.flagIs true || p == assignOne "y"

theorem onlyY_readsGlobals : ReadsGlobals onlyY := by
  intro type terms data _ h
  simp [onlyY, PredicateState.flagIs, assignOne] at h

end StateSlicer

end Borealis
