import Borealis.SMT.ProbeModels

/-!
# Summaries and contracts by interpolation

`Solver::getSummary` and `Solver::getContract` of `SMT/MathSAT/Solver.cpp`.  Both assert a body and
the negation of a query in groups, look for models of the body and the query that leave no model of
the negated query, add these models as one more assertion and ask for the interpolant of the first
group.  The groups are assigned the other way round, and both fall back to the formula `true`.

For a summary that is no harm: the body implies `true`.  A contract has to exclude the models of
the body that are none of the query, so `true` is right only when there are no such models, and
`getContract` comes to its default after the first check has found one (`interpolation_sound_iff`).
-/

namespace Borealis

namespace Interpolation

open ProbeModels

variable {E A : Type}

/-! ## The library -/

/-- `msat_result`. -/
inductive MsatResult where
  | sat
  | unsat
  | unknown
  deriving DecidableEq

/-- Assertions, each with the interpolation group it was made in. -/
abbrev Assertions (A : Type) := List (ℕ × Formula A)

/-- MathSAT: its answers, for the number of checks made before and the assertions, its interpolants,
for the groups that make up the first side, and its samples, for the number of attempts made before,
the diversifiers, the expressions collected and the limit.  It may give up and is right otherwise;
nothing is asked of the samples. -/
structure MathSAT (E A : Type) where
  check : ℕ → Assertions A → MsatResult
  interpolant : ℕ → Assertions A → List ℕ → Formula A
  diversify : ℕ → List E → List E → ℕ → List (Formula A)
  sat : ∀ n assertions, check n assertions = .sat → ∃ α, ∀ p ∈ assertions, p.2 α = true
  unsat : ∀ n assertions, check n assertions = .unsat → ∀ α, ∃ p ∈ assertions, p.2 α = false
  implied : ∀ n assertions groups, check n assertions = .unsat → ∀ α,
    (∀ p ∈ assertions, p.1 ∈ groups → p.2 α = true) → interpolant n assertions groups α = true
  excluded : ∀ n assertions groups, check n assertions = .unsat → ∀ α,
    (∀ p ∈ assertions, p.1 ∉ groups → p.2 α = true) → interpolant n assertions groups α = false

/-- `mathsat::ISolver`. -/
structure ISolver (A : Type) where
  groups : ℕ
  current : ℕ
  assertions : Assertions A

namespace ISolver

def empty : ISolver A := ⟨0, 0, []⟩

/-- `create_and_set_itp_group`: the group and the solver. -/
def create_and_set_itp_group (s : ISolver A) : ℕ × ISolver A :=
  (s.groups, { s with groups := s.groups + 1, current := s.groups })

def set_itp_group (s : ISolver A) (group : ℕ) : ISolver A :=
  { s with current := group }

def add (s : ISolver A) (f : Formula A) : ISolver A :=
  { s with assertions := s.assertions ++ [(s.current, f)] }

end ISolver

/-! ## Sampling -/

/-- A path predicate, by its class and the term on its left. -/
inductive PathPredicate (E : Type) where
  | equality (lhv : E)
  | inequality (lhv : E)
  | defaultSwitchCase
  | other

/-- `getPathVars`. -/
def getPathVars : List (PathPredicate E) → Option (List E)
  | [] => some []
  | .equality lhv :: rest | .inequality lhv :: rest => (getPathVars rest).map (lhv :: ·)
  | .defaultSwitchCase :: rest => getPathVars rest
  | .other :: _ => none

/-- The settings of the section `summary`. -/
structure Config where
  model_sampling : Bool
  sampling_solver : String
  countLimit : ℕ
  attemptLimit : ℕ

/-- What a summary or a contract is made of: the translations of the body and the query, the path
predicates of the body, the arguments, and the states that `probeZ3` finds, which come from another
solver. -/
structure Problem (E A : Type) where
  body : Dynamic A
  query : Dynamic A
  paths : List (PathPredicate E)
  args : List E
  z3Models : Dynamic A

/-- `getTrue` and `getFalse`. -/
def constant (b : Bool) : Dynamic A := ⟨fun _ => b, fun _ => true⟩

/-- `operator||` with an expression of the library. -/
def or (ms : Dynamic A) (m : Formula A) : Dynamic A :=
  ⟨fun α => ms.expr α || m α, ms.axioms⟩

variable (cfg : Config) (msat : MathSAT E A) (p : Problem E A)

/-- The assertions that a sample is checked with. -/
def probeAssertions (m : Formula A) : Assertions A :=
  let s := (ISolver.empty (A := A)).create_and_set_itp_group.2
  (((s.add p.body.asAxiom).add p.query.not.asAxiom).add m).assertions

/-- The variables of `probeMathSat`, with the number of checks. -/
structure Probing (A : Type) where
  calls : ℕ
  count : ℕ
  ms : Dynamic A

/-- The loop over the samples of one attempt. -/
def probeModels : List (Formula A) → Probing A → Probing A
  | [], probing => probing
  | m :: models, probing =>
    if msat.check probing.calls (probeAssertions p m) = .sat then
      probeModels models { probing with calls := probing.calls + 1 }
    else
      let kept := ⟨probing.calls + 1, probing.count + 1, or probing.ms m⟩
      if cfg.countLimit ≤ kept.count then kept else probeModels models kept

/-- The outer loop of `probeMathSat`, for as many attempts as are left. -/
def probeAttempts (dvrs : List E) : ℕ → Probing A → Probing A
  | 0, probing => probing
  | left + 1, probing =>
    if probing.count < cfg.countLimit then
      probeAttempts dvrs left
        (probeModels cfg msat p
          (msat.diversify (cfg.attemptLimit - (left + 1)) dvrs p.args (cfg.countLimit * 2 % 2 ^ 32))
          probing)
    else probing

/-- `probeMathSat`. -/
def probeMathSat (calls : ℕ) (pathVars : List E) : Probing A :=
  probeAttempts cfg msat p (p.args ++ pathVars) cfg.attemptLimit ⟨calls, 0, constant false⟩

/-- The samples by the configured solver, with the number of checks. -/
def probe (calls : ℕ) (pathVars : List E) : Dynamic A × ℕ :=
  if cfg.sampling_solver = "mathsat" then
    ((probeMathSat cfg msat p calls pathVars).ms, (probeMathSat cfg msat p calls pathVars).calls)
  else (p.z3Models, calls)

/-! ## Summaries and contracts -/

/-- The solver of `getSummary` before the first check, and its groups. -/
def summarySolver : ℕ × ℕ × ISolver A :=
  let first := (ISolver.empty (A := A)).create_and_set_itp_group
  let second := (first.2.add p.body.asAxiom).create_and_set_itp_group
  (first.1, second.1, second.2.add p.query.not.asAxiom)

/-- `getSummary`. -/
def getSummary : Option (Formula A) :=
  let B := (summarySolver p).1
  let Q := (summarySolver p).2.1
  let s := (summarySolver p).2.2
  (getPathVars p.paths).bind fun pathVars =>
    match msat.check 0 s.assertions with
    | .unsat => some (msat.interpolant 0 s.assertions [B])
    | .sat =>
      if cfg.model_sampling then
        let ms := probe cfg msat p 1 pathVars
        let s := (s.set_itp_group Q).add ms.1.asAxiom
        match msat.check ms.2 s.assertions with
        | .unsat => some (msat.interpolant ms.2 s.assertions [B])
        | _ => some (constant true).asAxiom
      else some (constant true).asAxiom
    | .unknown => some (constant true).asAxiom

/-- The solver of `getContract` before the first check, and its first group. -/
def contractSolver : ℕ × ISolver A :=
  let first := (ISolver.empty (A := A)).create_and_set_itp_group
  let second := first.2.create_and_set_itp_group
  (first.1, (second.2.add p.body.asAxiom).add p.query.not.asAxiom)

/-- The first answer in `getContract`. -/
def firstAnswer : MsatResult := msat.check 0 (contractSolver p).2.assertions

/-- The assertions of `getContract` after the samples were added. -/
def sampledAssertions (pathVars : List E) : Assertions A :=
  (((contractSolver p).2.set_itp_group (contractSolver p).1).add
    (probe cfg msat p 1 pathVars).1.asAxiom).assertions

/-- The second answer in `getContract`. -/
def secondAnswer (pathVars : List E) : MsatResult :=
  msat.check (probe cfg msat p 1 pathVars).2 (sampledAssertions cfg msat p pathVars)

/-- `getContract`: there is none for a formula that has no model. -/
def getContract : Option (Formula A) :=
  let B := (contractSolver p).1
  (getPathVars p.paths).bind fun pathVars =>
    match firstAnswer msat p with
    | .unsat => none
    | .sat =>
      match secondAnswer cfg msat p pathVars with
      | .unsat =>
        some (msat.interpolant (probe cfg msat p 1 pathVars).2
          (sampledAssertions cfg msat p pathVars) [B])
      | _ => some (constant true).asAxiom
    | .unknown => some (constant true).asAxiom

/-! ## Soundness -/

/-- A formula and the body imply the query, under the axioms of both. -/
def Problem.Entails (f : Formula A) : Prop :=
  ∀ α, f α = true → p.body.asAxiom α = true → p.query.axioms α = true → p.query.expr α = true

/-- **Summaries are implied by the body.** -/
def SummarySound : Prop :=
  ∀ f, getSummary cfg msat p = some f → ∀ α, p.body.asAxiom α = true → f α = true

/-- **Contracts, together with the body, imply the query.** -/
def ContractSound : Prop :=
  ∀ f, getContract cfg msat p = some f → p.Entails f

theorem asAxiom_not_iff (q : Dynamic A) (α : A) :
    q.not.asAxiom α = true ↔ q.expr α = false ∧ q.axioms α = true := by
  rw [Dynamic.asAxiom, Dynamic.not, Bool.and_eq_true, Bool.not_eq_true']

/-- **A summary is sound**, whatever was sampled: the body is all that is in its group. -/
theorem summarySound : SummarySound cfg msat p := by
  intro f hf α hbody
  obtain ⟨pathVars, -, hf⟩ := Option.bind_eq_some_iff.1 hf
  have hbefore : ∀ q ∈ (summarySolver p).2.2.assertions, q.1 ∈ [(summarySolver p).1] →
      q.2 α = true := by
    simp [summarySolver, ISolver.empty, ISolver.create_and_set_itp_group, ISolver.add, hbody]
  have hsampled : ∀ ms : Formula A,
      ∀ q ∈ (((summarySolver p).2.2.set_itp_group (summarySolver p).2.1).add ms).assertions,
        q.1 ∈ [(summarySolver p).1] → q.2 α = true := by
    simp [summarySolver, ISolver.empty, ISolver.create_and_set_itp_group, ISolver.add,
      ISolver.set_itp_group, hbody]
  split at hf
  · next hfirst =>
    -- the first check refuted the body together with the query
    cases hf
    exact msat.implied _ _ _ hfirst α hbefore
  · split at hf
    · dsimp only at hf
      split at hf
      · next hsecond =>
        cases hf
        exact msat.implied _ _ _ hsecond α (hsampled _)
      · cases hf
        rfl
    · cases hf
      rfl
  · cases hf
    rfl

/-- An interpolant of the samples excludes the models of the body that are none of the query. -/
theorem entails_interpolant {pathVars : List E}
    (hunsat : secondAnswer cfg msat p pathVars = .unsat) :
    p.Entails (msat.interpolant (probe cfg msat p 1 pathVars).2
      (sampledAssertions cfg msat p pathVars) [(contractSolver p).1]) := by
  intro α hf hbody haxioms
  by_contra hquery
  have hnot : p.query.not.asAxiom α = true :=
    (asAxiom_not_iff p.query α).2 ⟨Bool.not_eq_true _ ▸ hquery, haxioms⟩
  have hothers : ∀ q ∈ sampledAssertions cfg msat p pathVars, q.1 ∉ [(contractSolver p).1] →
      q.2 α = true := by
    simp [sampledAssertions, contractSolver, ISolver.empty, ISolver.create_and_set_itp_group,
      ISolver.add, ISolver.set_itp_group, hbody, hnot]
  have hfalse := msat.excluded _ _ _ hunsat α hothers
  exact absurd (hfalse.symm.trans hf) Bool.false_ne_true

/-- A first model satisfies the body and not the query. -/
theorem not_entails_of_sat (hsat : firstAnswer msat p = .sat) : ¬ p.Entails fun _ => true := by
  intro h
  obtain ⟨α, hα⟩ := msat.sat _ _ hsat
  have hbody : p.body.asAxiom α = true :=
    hα (1, p.body.asAxiom) (by simp [contractSolver, ISolver.create_and_set_itp_group,
      ISolver.empty, ISolver.add])
  have hquery := hα (1, p.query.not.asAxiom) (by simp [contractSolver,
    ISolver.create_and_set_itp_group, ISolver.empty, ISolver.add])
  obtain ⟨hexpr, haxioms⟩ := (asAxiom_not_iff p.query α).1 hquery
  exact absurd (hexpr.symm.trans (h α rfl hbody haxioms)) Bool.false_ne_true

/-- **When summaries and contracts are sound**: the samples of a contract have to be refuted once
the first check has found a model, and the body has to imply the query when it gave up. -/
theorem interpolation_sound_iff : SummarySound cfg msat p ∧ ContractSound cfg msat p ↔
    ∀ pathVars, getPathVars p.paths = some pathVars →
      (firstAnswer msat p = .sat → secondAnswer cfg msat p pathVars = .unsat) ∧
      (firstAnswer msat p = .unknown → p.Entails fun _ => true) := by
  rw [and_iff_right (summarySound cfg msat p)]
  constructor
  · intro h pathVars hpaths
    have hreturns : ∀ f, getContract cfg msat p = some f → p.Entails f := h
    rw [getContract, hpaths, Option.bind_some] at hreturns
    constructor
    · intro hsat
      by_contra hunsat
      -- without an interpolant the contract is `true`
      rw [hsat] at hreturns
      apply not_entails_of_sat msat p hsat
      apply hreturns
      dsimp only
      split
      · next heq => exact absurd heq hunsat
      · rfl
    · intro hunknown
      rw [hunknown] at hreturns
      exact hreturns _ rfl
  · intro h f hf
    obtain ⟨pathVars, hpaths, hf⟩ := Option.bind_eq_some_iff.1 hf
    obtain ⟨hsat, hunknown⟩ := h pathVars hpaths
    split at hf
    · cases hf
    · next hfirst =>
      rw [hsat hfirst] at hf
      cases hf
      exact entails_interpolant cfg msat p (hsat hfirst)
    · next hfirst =>
      cases hf
      exact hunknown hfirst

/-- A library that finds the only assignment there is, and gives up after the first check. -/
def lazySolver : MathSAT Unit Unit where
  check n assertions := if n = 0 ∧ ∀ q ∈ assertions, q.2 () = true then .sat else .unknown
  interpolant _ _ _ _ := true
  diversify _ _ _ _ := []
  sat n assertions h := by
    split at h
    · next hall => exact ⟨(), hall.2⟩
    · cases h
  unsat n assertions h := by split at h <;> cases h
  implied n assertions _ h := by split at h <;> cases h
  excluded n assertions _ h := by split at h <;> cases h

/-- A body that says nothing, and a query that fails. -/
def failingQuery : Problem Unit Unit :=
  ⟨constant true, constant false, [], [], constant false⟩

/-- The contract `true` does not imply a query that fails. -/
theorem not_sound_lazySolver :
    ¬ (SummarySound ⟨true, "mathsat", 16, 1⟩ lazySolver failingQuery ∧
      ContractSound ⟨true, "mathsat", 16, 1⟩ lazySolver failingQuery) := by
  rintro ⟨-, h⟩
  have hcontract : getContract ⟨true, "mathsat", 16, 1⟩ lazySolver failingQuery =
      some (constant true).asAxiom := rfl
  exact absurd (h _ hcontract () rfl rfl rfl) Bool.false_ne_true

/-! ### Solvers that never give up -/

/-- No model of the body that satisfies the formula falsifies the query. -/
def Refuted (ms : Dynamic A) : Prop :=
  ∀ α, ms.expr α = true → p.body.asAxiom α = true → p.query.not.asAxiom α = false

/-- A sample that is kept was refuted. -/
theorem refuted_or {ms : Dynamic A} (hms : Refuted p ms) {n : ℕ} {m : Formula A}
    (hunsat : msat.check n (probeAssertions p m) = .unsat) : Refuted p (or ms m) := by
  intro α hα hbody
  rcases Bool.or_eq_true_iff.1 hα with hα | hα
  · exact hms α hα hbody
  · obtain ⟨q, hq, hfalse⟩ := msat.unsat _ _ hunsat α
    simp only [probeAssertions, ISolver.add, ISolver.create_and_set_itp_group, ISolver.empty,
      List.nil_append, List.cons_append, List.mem_cons, List.not_mem_nil, or_false] at hq
    rcases hq with rfl | rfl | rfl
    · exact absurd (hfalse.symm.trans hbody) Bool.false_ne_true
    · exact hfalse
    · exact absurd (hfalse.symm.trans hα) Bool.false_ne_true

theorem refuted_probeModels (hdecides : ∀ n assertions, msat.check n assertions ≠ .unknown)
    (models : List (Formula A)) {probing : Probing A} (h : Refuted p probing.ms) :
    Refuted p (probeModels cfg msat p models probing).ms := by
  induction models generalizing probing with
  | nil => exact h
  | cons m models ih =>
      rw [probeModels]
      split
      · exact ih h
      · next hnot =>
        -- a sample is kept when the check of it finds no model
        have hunsat : msat.check probing.calls (probeAssertions p m) = .unsat := by
          cases hcheck : msat.check probing.calls (probeAssertions p m) with
          | sat => exact absurd hcheck hnot
          | unsat => rfl
          | unknown => exact absurd hcheck (hdecides _ _)
        dsimp only
        split
        · exact refuted_or msat p h hunsat
        · exact ih (refuted_or msat p h hunsat)

theorem refuted_probeAttempts (hdecides : ∀ n assertions, msat.check n assertions ≠ .unknown)
    (dvrs : List E) (left : ℕ) {probing : Probing A} (h : Refuted p probing.ms) :
    Refuted p (probeAttempts cfg msat p dvrs left probing).ms := by
  induction left generalizing probing with
  | zero => exact h
  | succ left ih =>
      rw [probeAttempts]
      split
      · exact ih (refuted_probeModels cfg msat p hdecides _ h)
      · exact h

/-- **Contracts of samples from a solver that never gives up are sound.** -/
theorem contractSound_of_decides (hsolver : cfg.sampling_solver = "mathsat")
    (hdecides : ∀ n assertions, msat.check n assertions ≠ .unknown) :
    ContractSound cfg msat p := by
  apply And.right
  refine (interpolation_sound_iff cfg msat p).2 fun pathVars _ =>
    ⟨fun _ => ?_, fun hunknown => ?_⟩
  · have hrefuted : Refuted p (probe cfg msat p 1 pathVars).1 := by
      rw [probe, if_pos hsolver]
      exact refuted_probeAttempts cfg msat p hdecides _ _ fun α h => by cases h
    cases hsecond : secondAnswer cfg msat p pathVars with
    | sat =>
        -- a model of the samples would falsify the query
        obtain ⟨α, hα⟩ := msat.sat _ _ hsecond
        simp only [sampledAssertions, contractSolver, ISolver.add, ISolver.set_itp_group,
          ISolver.create_and_set_itp_group, ISolver.empty, List.nil_append, List.cons_append,
          List.forall_mem_cons] at hα
        obtain ⟨hbody, hnot, hms, -⟩ := hα
        have hexpr : (probe cfg msat p 1 pathVars).1.expr α = true :=
          (Bool.and_eq_true_iff.1 hms).1
        exact absurd (hnot.symm.trans (hrefuted α hexpr hbody)) (Bool.false_ne_true ∘ Eq.symm)
    | unsat => rfl
    | unknown => exact absurd hsecond (hdecides _ _)
  · exact absurd hunknown (hdecides _ _)

end Interpolation

end Borealis
