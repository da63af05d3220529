import Borealis.State.Simplify

/-!
# Unreachable states

`PredicateState::isUnreachableIn` splits a state by predicate type into its path part and the
rest, and asks the solver whether the path part is possible in the rest.

The solver proper is Z3, which is not part of the repository: `check` stands for
`Solver::check`, with the three answers of Z3, and `Sound` is what an answer of `sat` or `unsat`
is documented to mean.  `initial` holds of the valuations that the initial state allows.

`Solver::isPathImpossible` turns every answer but `sat` into `UnsatResult`.  Its neighbour
`Solver::isViolated` returns `UnknownResult` when Z3 answers `unknown`; here the answer `unknown`
makes a state unreachable.

## Strategy

A split state is weaker than the state it came from (`holds_splitByTypes`): filtering a basic
state drops conjuncts, and a choice pairs up less than before, because the alternative that
holds in one half need not be the one that holds in the other.  An answer of `unsat` for the two
halves is therefore an answer for the whole, and only `unknown` can go wrong.
-/

namespace Borealis

namespace PredicateState

/-! ## Splitting by type -/

mutual
/-- `splitByTypes` of the three classes. -/
def splitByTypes (types : List PredicateType) :
    PredicateState Predicate → PredicateState Predicate × PredicateState Predicate
  | basic data =>
    (basic (data.filter fun p => types.any fun type => p.getType == type),
      basic (data.filter fun p => !types.any fun type => p.getType == type))
  | chain base curr =>
    let baseSplit := splitByTypes types base
    let currSplit := splitByTypes types curr
    (chain baseSplit.1 currSplit.1, chain baseSplit.2 currSplit.2)
  | choice choices =>
    let splits := splitAllByTypes types choices
    (choice (splits.map Prod.fst), choice (splits.map Prod.snd))

/-- `splitByTypes` on every alternative of a choice. -/
def splitAllByTypes (types : List PredicateType) :
    List (PredicateState Predicate) →
      List (PredicateState Predicate × PredicateState Predicate)
  | [] => []
  | c :: cs => splitByTypes types c :: splitAllByTypes types cs
end

theorem splitAllByTypes_eq_map (types : List PredicateType)
    (cs : List (PredicateState Predicate)) :
    splitAllByTypes types cs = cs.map (splitByTypes types) := by
  induction cs with
  | nil => rfl
  | cons c cs ih => rw [splitAllByTypes, ih, List.map_cons]

/-- **A split state is weaker than the state itself**: a valuation that satisfies the state
satisfies both halves. -/
theorem holds_splitByTypes (types : List PredicateType) (v : Predicate → Bool)
    {s : PredicateState Predicate} (hs : s.holds v = true) :
    (s.splitByTypes types).1.holds v = true ∧ (s.splitByTypes types).2.holds v = true := by
  induction s using induction with
  | basic data =>
      rw [holds_basic, List.all_eq_true] at hs
      unfold splitByTypes
      constructor
      · rw [holds_basic, List.all_eq_true]
        intro p hp
        exact hs p (List.mem_of_mem_filter hp)
      · rw [holds_basic, List.all_eq_true]
        intro p hp
        exact hs p (List.mem_of_mem_filter hp)
  | chain base curr hbase hcurr =>
      rw [holds_chain, Bool.and_eq_true] at hs
      obtain ⟨hbase₁, hbase₂⟩ := hbase hs.1
      obtain ⟨hcurr₁, hcurr₂⟩ := hcurr hs.2
      simp only [splitByTypes, holds_chain, Bool.and_eq_true]
      exact ⟨⟨hbase₁, hcurr₁⟩, hbase₂, hcurr₂⟩
  | choice choices ih =>
      rw [holds_choice, List.any_eq_true] at hs
      obtain ⟨c, hc, hholds⟩ := hs
      -- the halves of the alternative that holds are alternatives of the halves
      obtain ⟨hfirst, hsecond⟩ := ih c hc hholds
      simp only [splitByTypes, splitAllByTypes_eq_map, List.map_map, holds_choice,
        List.any_eq_true]
      constructor
      · exact ⟨_, List.mem_map_of_mem hc, hfirst⟩
      · exact ⟨_, List.mem_map_of_mem hc, hsecond⟩

/-! ## The solver -/

/-- `z3::check_result`. -/
inductive CheckResult where
  | unsat | sat | unknown
deriving DecidableEq, Repr

/-- `smt::Result`, without the model that a sat result may carry. -/
inductive Result where
  | sat | unsat | unknown
deriving DecidableEq, Repr

/-- `Result::isUnsat`. -/
def Result.isUnsat : Result → Bool
  | .unsat => true
  | _ => false

section Solver

variable (check : PredicateState Predicate → PredicateState Predicate → CheckResult)

/-- `Solver::isPathImpossible`. -/
def isPathImpossible (path state : PredicateState Predicate) : Result :=
  if check path state = .sat then .sat else .unsat

/-- `PredicateState::isUnreachableIn`. -/
def isUnreachableIn (s : PredicateState Predicate) : Bool :=
  let split := s.splitByTypes [.path]
  (isPathImpossible check split.1 split.2).isUnsat

variable (initial : (Predicate → Bool) → Prop)

/-- Some valuation that the initial state allows satisfies the state. -/
def Satisfiable (s : PredicateState Predicate) : Prop :=
  ∃ v, initial v ∧ s.holds v = true

/-- The solver answers `sat` only when a query and a state have a common model, and `unsat` only
when they have none; it may always answer `unknown`. -/
structure Sound : Prop where
  sat : ∀ path state, check path state = .sat →
    ∃ v, initial v ∧ path.holds v = true ∧ state.holds v = true
  unsat : ∀ path state, check path state = .unsat →
    ¬ ∃ v, initial v ∧ path.holds v = true ∧ state.holds v = true

variable {check initial}

theorem isUnreachableIn_eq_true_iff {s : PredicateState Predicate} :
    isUnreachableIn check s = true ↔
      check (s.splitByTypes [.path]).1 (s.splitByTypes [.path]).2 ≠ .sat := by
  simp only [isUnreachableIn, isPathImpossible]
  split <;> simp_all [Result.isUnsat]

/-- An answer of `unsat` for the two halves is one for the whole state. -/
theorem Sound.not_satisfiable (hsound : Sound check initial) {s : PredicateState Predicate}
    (hunsat : check (s.splitByTypes [.path]).1 (s.splitByTypes [.path]).2 = .unsat) :
    ¬ Satisfiable initial s := by
  rintro ⟨v, hinitial, hholds⟩
  apply hsound.unsat _ _ hunsat
  exact ⟨v, hinitial, holds_splitByTypes [.path] v hholds⟩

/-- **`isUnreachableIn` is sound exactly where the solver does not answer `unknown` for the
halves of a satisfiable state.**  The split itself implies nothing that the state does not
imply. -/
theorem isUnreachableIn_sound_iff (hsound : Sound check initial)
    (s : PredicateState Predicate) :
    (∀ v, s.holds v = true → (s.splitByTypes [.path]).1.holds v = true ∧
      (s.splitByTypes [.path]).2.holds v = true) ∧
    ((isUnreachableIn check s = true → ¬ Satisfiable initial s) ↔
      ¬ (check (s.splitByTypes [.path]).1 (s.splitByTypes [.path]).2 = .unknown ∧
        Satisfiable initial s)) := by
  refine ⟨fun v hholds => holds_splitByTypes [.path] v hholds, ?_⟩
  rw [isUnreachableIn_eq_true_iff]
  constructor
  · rintro hclaim ⟨hunknown, hsat⟩
    refine hclaim ?_ hsat
    rw [hunknown]
    exact CheckResult.noConfusion
  · intro hknown hanswer hsat
    cases hcheck : check (s.splitByTypes [.path]).1 (s.splitByTypes [.path]).2 with
    | sat => exact hanswer hcheck
    | unsat => exact hsound.not_satisfiable hcheck hsat
    | unknown => exact hknown ⟨hcheck, hsat⟩

end Solver

/-! ### Two solvers -/

/-- The solver for states in which no two predicates exclude each other: predicates only occur
positively, so it is enough to try the valuation that makes all of them true. -/
def positiveCheck (path state : PredicateState Predicate) : CheckResult :=
  if path.vacuous && state.vacuous then .sat else .unsat

theorem positiveCheck_sound : Sound positiveCheck fun _ => True := by
  refine ⟨fun path state hsat => ?_, fun path state hunsat => ?_⟩
  · unfold positiveCheck at hsat
    split at hsat
    · next hholds =>
        rw [Bool.and_eq_true] at hholds
        exact ⟨fun _ => true, trivial, hholds⟩
    · exact absurd hsat CheckResult.noConfusion
  · rintro ⟨v, -, hpath, hstate⟩
    have hpath' : path.vacuous = true := holds_mono (fun _ _ => rfl) hpath
    have hstate' : state.vacuous = true := holds_mono (fun _ _ => rfl) hstate
    simp [positiveCheck, hpath', hstate'] at hunsat

/-- A chain behind the empty choice is unreachable, and no valuation satisfies it. -/
theorem isUnreachableIn_sound_iff_chain :
    isUnreachableIn positiveCheck (chain (choice []) (basic [flagIs true])) = true ∧
      ¬ Satisfiable (fun _ => True) (chain (choice []) (basic [flagIs true])) := by
  have hunreachable :
      isUnreachableIn positiveCheck (chain (choice []) (basic [flagIs true])) = true := by
    decide
  refine ⟨hunreachable, ?_⟩
  refine (isUnreachableIn_sound_iff positiveCheck_sound _).2.mpr ?_ hunreachable
  rintro ⟨hunknown, -⟩
  revert hunknown
  decide

/-- A solver that gives up on `flag = true` makes it unreachable, although it can be true. -/
theorem isUnreachableIn_unsound :
    ¬ ∀ (check : PredicateState Predicate → PredicateState Predicate → CheckResult)
        (initial : (Predicate → Bool) → Prop), Sound check initial →
      ∀ s, isUnreachableIn check s = true → ¬ Satisfiable initial s := by
  intro hclaim
  have hsound : Sound (fun _ _ => .unknown) fun _ => True :=
    ⟨fun _ _ h => absurd h CheckResult.noConfusion, fun _ _ h => absurd h CheckResult.noConfusion⟩
  refine hclaim _ _ hsound (basic [flagIs true]) (by decide) ⟨valuation true, trivial, ?_⟩
  decide

end PredicateState

end Borealis
