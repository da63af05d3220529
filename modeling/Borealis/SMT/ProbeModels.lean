import Mathlib

/-!
# Summaries from models

`Solver::probeModels` of `SMT/Z3/Solver.cpp` and `diversify_unsafe` of `SMT/Z3/Divers.cpp`: models
of a body and a query are enumerated, each is blocked by its values of the diversifiers, and the
values it gives to the collectibles become a state where a second solver does not find a model of
the body that has them and not the query.

## Strategy

A formula is a predicate on assignments, and the solver is any function of the assertions and of
the number of checks so far.  A model knows how it evaluates an expression and which assignment it
is when completed.  It satisfies its own block (`model2expr_completed`), so no later model is the
same (`diversifyUnsafe_spec`).  The states are those of the checked models whose second check is not
`sat` (`states_attempts`), which includes the ones the second solver gave up on.
-/

namespace Borealis

namespace ProbeModels

/-- What a check answers. -/
inductive CheckResult (M : Type)
  | sat (model : M)
  | unsat
  | unknown

def CheckResult.isSat {M : Type} : CheckResult M → Bool
  | .sat _ => true
  | _ => false

variable {E A V : Type} {value : E → A → V}

/-- `z3::model`.  Evaluation may leave in the result what the model does not fix; the completed
model is an assignment, and agrees with the evaluation. -/
structure Model (value : E → A → V) where
  completed : A
  eval : E → E
  value_eval : ∀ e, value (eval e) completed = value e completed

abbrev Formula (A : Type) := A → Bool

/-- A translated state: the expression and its side conditions. -/
structure Dynamic (A : Type) where
  expr : Formula A
  axioms : Formula A

def Dynamic.asAxiom (d : Dynamic A) : Formula A := fun α => d.expr α && d.axioms α

/-- `operator!`. -/
def Dynamic.not (d : Dynamic A) : Dynamic A :=
  ⟨fun α => !d.expr α, d.axioms⟩

/-- `z3::solver::check`: the number of checks made before and the assertions. -/
abbrev Check (value : E → A → V) := ℕ → List (Formula A) → CheckResult (Model value)

/-- The solver may give up, and is right otherwise. -/
structure Sound (check : Check value) : Prop where
  sat : ∀ n assertions model, check n assertions = .sat model →
    ∀ f ∈ assertions, f model.completed = true
  unsat : ∀ n assertions, check n assertions = .unsat → ∀ α, ∃ f ∈ assertions, f α = false

section Enumeration

variable [DecidableEq V]

/-- `model2expr`, and the block of a model before it is negated. -/
def model2expr (model : Model value) (collectibles : List E) : Formula A := fun α =>
  collectibles.all fun c => value c α == value (model.eval c) α

/-- A solver between two checks. -/
structure Session (A : Type) where
  calls : ℕ
  assertions : List (Formula A)

/-- `diversify_unsafe`. -/
def diversifyUnsafe (check : Check value) (divers : List E) :
    ℕ → Session A → List (Model value) × Session A
  | 0, solver => ([], solver)
  | limit + 1, solver =>
      match check solver.calls solver.assertions with
      | .unsat => ([], { solver with calls := solver.calls + 1 })
      | .unknown => diversifyUnsafe check divers limit { solver with calls := solver.calls + 1 }
      | .sat model =>
          let rest := diversifyUnsafe check divers limit
            ⟨solver.calls + 1, solver.assertions ++ [fun α => !model2expr model divers α]⟩
          (model :: rest.1, rest.2)

/-- A model has the values it blocks. -/
theorem model2expr_completed (model : Model value) (collectibles : List E) :
    model2expr model collectibles model.completed = true := by
  rw [model2expr, List.all_eq_true]
  intro c _
  rw [model.value_eval, beq_self_eq_true]

/-- What an enumeration does. -/
structure Enumerates (divers : List E) (limit : ℕ) (solver : Session A)
    (result : List (Model value) × Session A) : Prop where
  length_le : result.1.length ≤ limit
  keeps : ∀ f ∈ solver.assertions, f ∈ result.2.assertions
  blocks : ∀ model ∈ result.1, (fun α => !model2expr model divers α) ∈ result.2.assertions
  satisfies : ∀ model ∈ result.1, ∀ f ∈ solver.assertions, f model.completed = true
  distinct : result.1.Pairwise fun model later => model.completed ≠ later.completed

/-- A model of the block's negation is another one. -/
theorem completed_ne {model later : Model value} {divers : List E}
    (hlater : (!model2expr model divers later.completed) = true) :
    model.completed ≠ later.completed := by
  intro heq
  rw [← heq, model2expr_completed] at hlater
  cases hlater

/-- **What an enumeration does**, for every solver. -/
theorem diversifyUnsafe_spec {check : Check value} (hsound : Sound check) (divers : List E)
    (limit : ℕ) (solver : Session A) :
    Enumerates divers limit solver (diversifyUnsafe check divers limit solver) := by
  induction limit generalizing solver with
  | zero => exact ⟨le_rfl, fun _ h => h, by simp [diversifyUnsafe], by simp [diversifyUnsafe],
      List.Pairwise.nil⟩
  | succ limit ih =>
      rw [diversifyUnsafe]
      cases hcheck : check solver.calls solver.assertions with
      | unsat => exact ⟨Nat.zero_le _, fun _ h => h, by simp, by simp, List.Pairwise.nil⟩
      | unknown =>
          have hrest := ih { solver with calls := solver.calls + 1 }
          exact ⟨hrest.length_le.trans (Nat.le_succ limit), hrest.keeps, hrest.blocks,
            hrest.satisfies, hrest.distinct⟩
      | sat model =>
          have hrest := ih
            ⟨solver.calls + 1, solver.assertions ++ [fun α => !model2expr model divers α]⟩
          have hold : ∀ f ∈ solver.assertions, f ∈ solver.assertions ++
              [fun α => !model2expr model divers α] := fun f hf => List.mem_append_left _ hf
          have hblock : (fun α => !model2expr model divers α) ∈ solver.assertions ++
              [fun α => !model2expr model divers α] :=
            List.mem_append_right _ List.mem_cons_self
          constructor
          · exact Nat.succ_le_succ hrest.length_le
          · intro f hf
            exact hrest.keeps f (hold f hf)
          · intro later hlater
            rcases List.mem_cons.mp hlater with rfl | hlater
            · exact hrest.keeps _ hblock
            · exact hrest.blocks later hlater
          · intro later hlater
            rcases List.mem_cons.mp hlater with rfl | hlater
            · exact hsound.sat _ _ _ hcheck
            · exact fun f hf => hrest.satisfies later hlater f (hold f hf)
          · refine List.pairwise_cons.mpr ⟨fun later hlater => ?_, hrest.distinct⟩
            exact completed_ne (hrest.satisfies later hlater _ hblock)

/-! ## Probing -/

/-- What the translation of the arguments of `probeModels` gives. -/
structure Request (E A : Type) where
  body : Dynamic A
  query : Dynamic A
  uniqueAxioms : List (Formula A)
  diversifiers : List E
  collectibles : List E

/-- `model2state`: the collectibles and their values. -/
def model2state (model : Model value) (collectibles : List E) : List (E × V) :=
  collectibles.map fun c => (c, value c model.completed)

/-- A state holds. -/
def Holds (value : E → A → V) (state : List (E × V)) (α : A) : Prop :=
  ∀ c ∈ state, value c.1 α = c.2

namespace Request

/-- A state entails the query, together with the body. -/
def Entails (value : E → A → V) (request : Request E A) (state : List (E × V)) : Prop :=
  ∀ α, request.body.asAxiom α = true → request.query.axioms α = true → Holds value state α →
    request.query.expr α = true

/-- The assertions of the first solver. -/
def assertions (request : Request E A) : List (Formula A) :=
  [request.body.asAxiom, request.query.asAxiom] ++ request.uniqueAxioms

/-- The assertions of the second one. -/
def uassertions (request : Request E A) (model : Model value) : List (Formula A) :=
  [request.body.asAxiom, request.query.not.asAxiom, model2expr model request.collectibles]

end Request

/-- The variables of `probeModels`; `checked` are the models looked at, each with the number of its
check, and `fullCount` is how many. -/
structure Probe (value : E → A → V) where
  solver : Session A
  checked : List (ℕ × Model value)
  states : List (List (E × V))

variable (check : Check value) (request : Request E A) (countLimit : ℕ)

/-- The loop over the models of one enumeration. -/
def checkModels : List (Model value) → Probe value → Probe value
  | [], probe => probe
  | model :: models, probe =>
      let calls := probe.solver.calls
      let looked : Probe value :=
        ⟨{ probe.solver with calls := calls + 1 }, probe.checked ++ [(calls, model)],
          probe.states⟩
      if (check calls (request.uassertions model)).isSat then checkModels models looked
      else
        let kept := { looked with
          states := looked.states ++ [model2state model request.collectibles] }
        if countLimit ≤ kept.states.length then kept else checkModels models kept

/-- The loop of `probeModels`, for as many attempts as are left.  The counters are unsigned. -/
def attempts : ℕ → Probe value → Probe value
  | 0, probe => probe
  | left + 1, probe =>
      if probe.states.length < countLimit then
        let result := diversifyUnsafe check request.diversifiers (countLimit * 2 % 2 ^ 32)
          probe.solver
        attempts left (checkModels check request countLimit result.1
          { probe with solver := result.2 })
      else probe

/-- `probeModels`; the states are the choices of the result. -/
def probeModels (attemptLimit : ℕ) : Probe value :=
  attempts check request countLimit attemptLimit ⟨⟨0, request.assertions⟩, [], []⟩

/-! ### What a run keeps -/

/-- The states of the models that the second solver finds no model for. -/
def keptStates (checked : List (ℕ × Model value)) : List (List (E × V)) :=
  (checked.filter fun entry => !(check entry.1 (request.uassertions entry.2)).isSat).map
    fun entry => model2state entry.2 request.collectibles

/-- What holds between two attempts. -/
structure Probed (probe : Probe value) : Prop where
  states : probe.states = keptStates check request probe.checked
  blocked : ∀ entry ∈ probe.checked,
    (fun α => !model2expr entry.2 request.diversifiers α) ∈ probe.solver.assertions
  distinct : (probe.checked.map Prod.snd).Pairwise fun model later =>
    model.completed ≠ later.completed
  length_le : probe.states.length ≤ countLimit

variable {check request countLimit}

theorem keptStates_concat (checked : List (ℕ × Model value)) (entry : ℕ × Model value) :
    keptStates check request (checked ++ [entry]) = keptStates check request checked ++
      (if (check entry.1 (request.uassertions entry.2)).isSat then []
        else [model2state entry.2 request.collectibles]) := by
  rw [keptStates, List.filter_append, List.map_append, ← keptStates]
  cases hsat : (check entry.1 (request.uassertions entry.2)).isSat <;> simp [hsat]

/-- One more model is looked at. -/
theorem Probed.checkModels {models : List (Model value)} {probe : Probe value}
    (h : Probed check request countLimit probe) (hlt : probe.states.length < countLimit)
    (hblocks : ∀ model ∈ models,
      (fun α => !model2expr model request.diversifiers α) ∈ probe.solver.assertions)
    (hmodels : models.Pairwise fun model later => model.completed ≠ later.completed)
    (hnew : ∀ model ∈ probe.checked.map Prod.snd, ∀ later ∈ models,
      model.completed ≠ later.completed) :
    Probed check request countLimit (checkModels check request countLimit models probe) := by
  induction models generalizing probe with
  | nil => exact h
  | cons model models ih =>
      obtain ⟨hfirst, hrest⟩ := List.pairwise_cons.mp hmodels
      have hblocked : ∀ entry ∈ probe.checked ++ [(probe.solver.calls, model)],
          (fun α => !model2expr entry.2 request.diversifiers α) ∈ probe.solver.assertions := by
        intro entry hentry
        rcases List.mem_append.mp hentry with hentry | hentry
        · exact h.blocked entry hentry
        · rw [List.mem_singleton.mp hentry]
          exact hblocks model List.mem_cons_self
      have hdistinct : ((probe.checked ++ [(probe.solver.calls, model)]).map Prod.snd).Pairwise
          fun model later => model.completed ≠ later.completed := by
        rw [List.map_append, List.map_singleton, List.pairwise_append]
        refine ⟨h.distinct, List.pairwise_singleton _ _, fun m hm later hlater => ?_⟩
        rw [List.mem_singleton.mp hlater]
        exact hnew m hm model List.mem_cons_self
      have hnew' : ∀ m ∈ (probe.checked ++ [(probe.solver.calls, model)]).map Prod.snd,
          ∀ later ∈ models, m.completed ≠ later.completed := by
        intro m hm later hlater
        rw [List.map_append, List.map_singleton, List.mem_append, List.mem_singleton] at hm
        rcases hm with hm | rfl
        · exact hnew m hm later (List.mem_cons_of_mem model hlater)
        · exact hfirst later hlater
      rw [ProbeModels.checkModels]
      have hkept : keptStates check request (probe.checked ++ [(probe.solver.calls, model)]) = _ :=
        keptStates_concat probe.checked (probe.solver.calls, model)
      cases hsat : (check probe.solver.calls (request.uassertions model)).isSat with
      | true =>
          rw [if_pos rfl]
          rw [if_pos hsat, List.append_nil] at hkept
          exact ih ⟨h.states.trans hkept.symm, hblocked, hdistinct, h.length_le⟩ hlt
            (fun later hlater => hblocks later (List.mem_cons_of_mem model hlater)) hrest hnew'
      | false =>
          rw [if_neg Bool.false_ne_true]
          rw [if_neg (by simp [hsat])] at hkept
          have hprobed : Probed check request countLimit
              ⟨{ probe.solver with calls := probe.solver.calls + 1 },
                probe.checked ++ [(probe.solver.calls, model)],
                probe.states ++ [model2state model request.collectibles]⟩ := by
            refine ⟨?_, hblocked, hdistinct, ?_⟩
            · rw [hkept, h.states]
            · rw [List.length_append, List.length_singleton]
              exact hlt
          dsimp only
          split
          · exact hprobed
          · next hmore =>
              exact ih hprobed (not_le.mp hmore)
                (fun later hlater => hblocks later (List.mem_cons_of_mem model hlater)) hrest hnew'

/-- **The attempts keep what holds between them.** -/
theorem Probed.attempts (hsound : Sound check) (left : ℕ) {probe : Probe value}
    (h : Probed check request countLimit probe) :
    Probed check request countLimit (attempts check request countLimit left probe) := by
  induction left generalizing probe with
  | zero => exact h
  | succ left ih =>
      rw [ProbeModels.attempts]
      split
      · next hlt =>
          have hspec := diversifyUnsafe_spec hsound request.diversifiers
            (countLimit * 2 % 2 ^ 32) probe.solver
          apply ih
          refine Probed.checkModels ⟨h.states, fun entry hentry => ?_, h.distinct, h.length_le⟩ hlt
            hspec.blocks hspec.distinct fun model hmodel later hlater => ?_
          · exact hspec.keeps _ (h.blocked entry hentry)
          · -- the blocks of earlier attempts are still asserted
            obtain ⟨entry, hentry, rfl⟩ := List.mem_map.mp hmodel
            exact completed_ne (hspec.satisfies later hlater _ (h.blocked entry hentry))
      · exact h

theorem probed_probeModels (hsound : Sound check) (attemptLimit : ℕ) :
    Probed check request countLimit (probeModels check request countLimit attemptLimit) := by
  apply Probed.attempts hsound
  exact ⟨rfl, fun _ h => absurd h List.not_mem_nil, List.Pairwise.nil, Nat.zero_le _⟩

/-! ### Soundness -/

/-- A model says which value every collectible has. -/
def Model.Determines (model : Model value) (collectibles : List E) : Prop :=
  ∀ c ∈ collectibles, ∀ α, value (model.eval c) α = value c model.completed

/-- A state whose model the second solver refutes. -/
theorem entails_of_unsat (hsound : Sound check) {n : ℕ} {model : Model value}
    (hunsat : check n (request.uassertions model) = .unsat)
    (hdetermines : model.Determines request.collectibles) :
    request.Entails value (model2state model request.collectibles) := by
  intro α hbody haxioms hstate
  obtain ⟨f, hf, hfalse⟩ := hsound.unsat n _ hunsat α
  have hvalues : model2expr model request.collectibles α = true := by
    rw [model2expr, List.all_eq_true]
    intro c hc
    rw [hdetermines c hc α, beq_iff_eq]
    exact hstate (c, value c model.completed) (List.mem_map.mpr ⟨c, hc, rfl⟩)
  simp only [Request.uassertions, List.mem_cons, List.not_mem_nil, or_false] at hf
  rcases hf with rfl | rfl | rfl
  · exact absurd (hfalse.symm.trans hbody) Bool.false_ne_true
  · by_contra hquery
    rw [Bool.not_eq_true] at hquery
    simp [Dynamic.asAxiom, Dynamic.not, hquery, haxioms] at hfalse
  · exact absurd (hfalse.symm.trans hvalues) Bool.false_ne_true

variable (check request countLimit)

/-- The summary is sound, and the enumerations stop in time without a model twice. -/
structure SummarySound (attemptLimit : ℕ) : Prop where
  entails : ∀ state ∈ (probeModels check request countLimit attemptLimit).states,
    request.Entails value state
  enumerates : ∀ limit solver,
    Enumerates request.diversifiers limit solver
      (diversifyUnsafe check request.diversifiers limit solver)
  distinct : ((probeModels check request countLimit attemptLimit).checked.map Prod.snd).Pairwise
    fun model later => model.completed ≠ later.completed
  length_le : (probeModels check request countLimit attemptLimit).states.length ≤ countLimit

variable {check request countLimit}

/-- The model that fixes the one boolean variable. -/
def fixed (b : Bool) : Model fun (e : Bool → Bool) (α : Bool) => e α where
  completed := b
  eval e := fun _ => e b
  value_eval _ := rfl

/-- A solver that tries both values. -/
def tryBoth : Check fun (e : Bool → Bool) (α : Bool) => e α := fun _ assertions =>
  if assertions.all (fun f => f true) then .sat (fixed true)
  else if assertions.all (fun f => f false) then .sat (fixed false)
  else .unsat

theorem sound_tryBoth : Sound tryBoth where
  sat n assertions model h := by
    unfold tryBoth at h
    split at h
    · next hall =>
        cases h
        exact List.all_eq_true.mp hall
    · split at h
      · next hall =>
          cases h
          exact List.all_eq_true.mp hall
      · cases h
  unsat n assertions h := by
    unfold tryBoth at h
    split at h
    · cases h
    · next htrue =>
        split at h
        · cases h
        · next hfalse =>
            simp only [List.all_eq_true, not_forall, Bool.not_eq_true] at htrue hfalse
            intro α
            cases α with
            | true => exact ⟨_, htrue.choose_spec.choose, htrue.choose_spec.choose_spec⟩
            | false => exact ⟨_, hfalse.choose_spec.choose, hfalse.choose_spec.choose_spec⟩

/-- A solver that tries one value, and then gives up. -/
def tryOne : Check fun (e : Bool → Bool) (α : Bool) => e α := fun n assertions =>
  if n = 0 ∧ assertions.all (fun f => f true) then .sat (fixed true) else .unknown

theorem sound_tryOne : Sound tryOne where
  sat n assertions model h := by
    unfold tryOne at h
    split at h
    · next hall =>
        cases h
        exact List.all_eq_true.mp hall.2
    · cases h
  unsat n assertions h := by
    unfold tryOne at h
    split at h <;> cases h

/-- The query that the variable is true, with the variable as the diversifier. -/
def isTrue (collectibles : List (Bool → Bool)) : Request (Bool → Bool) Bool :=
  ⟨⟨fun _ => true, fun _ => true⟩, ⟨fun α => α, fun _ => true⟩, [], [fun α => α], collectibles⟩

end Enumeration

end ProbeModels

end Borealis
