import Mathlib.Data.List.Perm.Basic

/-!
# The solver portfolio

`portfolio_::Solver::isViolated` forks a process for each solver, waits for the first pipe that can
be read, kills the others and returns the first answer it reads.  Any number of pipes may be
readable by then, in whatever order the hash set has them.

Unknown answers are meant not to win: a child sleeps before it writes one.  The sleep takes the
timeout, which is in milliseconds, as seconds, so no unknown answer is ever in time — unless there
is no timeout, where it does not sleep at all, or the parent is late.  `isViolated_correct_iff` says
that nothing else can go wrong.
-/

namespace Borealis

namespace Portfolio

/-- What a solver answers. -/
inductive Answer where
  | sat
  | unsat
  | unknown
  deriving DecidableEq

/-- A forked solver: its answer, and the millisecond in which it has it, if it ever does. -/
structure Child where
  answer : Answer
  finish : Option Nat
  deriving DecidableEq

/-- `force-timeout` in milliseconds, zero for none, and the millisecond in which the parent has
forked all solvers and calls `select`. -/
structure Setting where
  timeout : Nat
  start : Nat

/-- `forkSolver`, before it writes: `sleep` counts in seconds. -/
def sleepFor (S : Setting) (answer : Answer) : Nat :=
  if answer = .unknown then 1000 * S.timeout else 0

/-- The pipe of a child can be read. -/
def readable (S : Setting) (now : Nat) (c : Child) : Bool :=
  c.finish.any fun t => t + sleepFor S c.answer ≤ now

/-- The solvers that are run, each as it behaves on the query; an assertion keeps an empty set of
names out. -/
def forks (solvers : List String) (behaviour : String → Child) : List Child :=
  (["z3", "cvc4", "boolector", "stp", "mathsat"].filter (· ∈ solvers)).map behaviour

/-- `better_select`: the pipes that can be read when `select` looks, in any order; none if the time
is over and nothing can be read. -/
inductive Selected (S : Setting) (children : List Child) : List Child → Prop
  | ready {now : Nat} {files : List Child} : S.start ≤ now →
      (S.timeout ≠ 0 → now ≤ S.start + S.timeout) → files ≠ [] →
      files.Perm (children.filter (readable S now)) → Selected S children files
  | timedOut : S.timeout ≠ 0 →
      children.filter (readable S (S.start + S.timeout)) = [] → Selected S children []

/-- The rest of `isViolated`: no files are a timeout, and otherwise the first result is returned. -/
def isViolated (files : List Child) : Answer :=
  match files.map Child.answer with
  | [] => .unknown
  | front :: _ => front

/-- The pipe can be read before the time is over. -/
def InTime (S : Setting) (c : Child) : Prop :=
  ∃ now, (S.timeout ≠ 0 → now ≤ S.start + S.timeout) ∧ readable S now c = true

/-- Two solvers disagree. -/
def Disagree (children : List Child) : Prop :=
  ∃ c ∈ children, ∃ d ∈ children, c.answer = .sat ∧ d.answer = .unsat

/-- What the portfolio promises: its result is an answer that was given, or unknown after the
timeout; and a sat or unsat in time is the result, if no two solvers disagree. -/
structure Correct (S : Setting) (children : List Child) : Prop where
  given : ∀ files, Selected S children files →
    (files = [] ∧ S.timeout ≠ 0 ∧ isViolated files = .unknown) ∨
      ∃ c ∈ children, c.finish.isSome ∧ isViolated files = c.answer
  definite : ∀ c ∈ children, c.answer ≠ .unknown → InTime S c → ¬ Disagree children →
    (∃ files, Selected S children files) ∧
      ∀ files, Selected S children files → isViolated files = c.answer

variable {S : Setting} {children : List Child}

theorem readable_mono {now later : Nat} (h : now ≤ later) {c : Child}
    (hc : readable S now c = true) : readable S later c = true := by
  obtain ⟨t, ht, hle⟩ := (Option.any_eq_true _ _).mp hc
  exact (Option.any_eq_true _ _).mpr
    ⟨t, ht, decide_eq_true (Nat.le_trans (of_decide_eq_true hle) h)⟩

/-- A pipe in time can be read by some moment at which `select` may look. -/
theorem InTime.exists_now {c : Child} (h : InTime S c) :
    ∃ now, S.start ≤ now ∧ (S.timeout ≠ 0 → now ≤ S.start + S.timeout) ∧
      readable S now c = true := by
  obtain ⟨now, hnow, hc⟩ := h
  rcases Nat.le_total S.start now with hle | hge
  · exact ⟨now, hle, hnow, hc⟩
  · exact ⟨S.start, Nat.le_refl _, fun _ => Nat.le_add_right _ _, readable_mono hge hc⟩

/-- Any child in time may be the first one that is read. -/
theorem InTime.exists_selected {c : Child} (h : InTime S c) (hc : c ∈ children) :
    ∃ rest, Selected S children (c :: rest) := by
  obtain ⟨now, hstart, hnow, hreadable⟩ := h.exists_now
  have hmem : c ∈ children.filter (readable S now) := List.mem_filter.mpr ⟨hc, hreadable⟩
  classical
  exact ⟨(children.filter (readable S now)).erase c,
    Selected.ready hstart hnow (List.cons_ne_nil _ _) (List.perm_cons_erase hmem).symm⟩

/-- What is read first is a child in time. -/
theorem Selected.head {c : Child} {rest : List Child} (h : Selected S children (c :: rest)) :
    c ∈ children ∧ InTime S c := by
  cases h with
  | ready _ hnow _ hperm =>
      obtain ⟨hc, hreadable⟩ := List.mem_filter.mp (hperm.subset List.mem_cons_self)
      exact ⟨hc, _, hnow, hreadable⟩

/-- With a child in time there is no timeout. -/
theorem Selected.ne_nil {files : List Child} (h : Selected S children files) {c : Child}
    (hc : c ∈ children) (hin : InTime S c) : files ≠ [] := by
  cases h with
  | ready _ _ hne _ => exact hne
  | timedOut htimeout hnone =>
      obtain ⟨now, hnow, hreadable⟩ := hin
      have hmem := List.mem_filter.mpr ⟨hc, readable_mono (hnow htimeout) hreadable⟩
      rw [hnone] at hmem
      exact absurd hmem List.not_mem_nil

/-- **The portfolio keeps its promise exactly if there is no definite answer to lose, the solvers
disagree, or no unknown answer is in time.** -/
theorem isViolated_correct_iff (S : Setting) (solvers : List String)
    (behaviour : String → Child) :
    Correct S (forks solvers behaviour) ↔
      (∀ c ∈ forks solvers behaviour, c.answer ≠ .unknown → ¬ InTime S c) ∨
      Disagree (forks solvers behaviour) ∨
      ∀ c ∈ forks solvers behaviour, c.answer = .unknown → ¬ InTime S c := by
  generalize forks solvers behaviour = children
  constructor
  · intro h
    by_contra hcon
    push Not at hcon
    -- the unknown answer may be the first one that is read
    obtain ⟨⟨c, hc, hdefinite, hin⟩, hagree, u, hu, hunknown, hin'⟩ := hcon
    obtain ⟨rest, hselected⟩ := hin'.exists_selected hu
    have hresult := (h.definite c hc hdefinite hin hagree).2 _ hselected
    exact hdefinite (hresult.symm.trans hunknown)
  · intro h
    refine ⟨fun files hselected => ?_, fun c hc hdefinite hin hagree => ⟨?_, ?_⟩⟩
    · cases files with
      | nil =>
          cases hselected with
          | ready _ _ hne _ => exact absurd rfl hne
          | timedOut htimeout _ => exact Or.inl ⟨rfl, htimeout, rfl⟩
      | cons c rest =>
          obtain ⟨hc, now, -, hreadable⟩ := hselected.head
          obtain ⟨t, ht, -⟩ := (Option.any_eq_true _ _).mp hreadable
          exact Or.inr ⟨c, hc, by rw [ht]; rfl, rfl⟩
    · obtain ⟨rest, hselected⟩ := hin.exists_selected hc
      exact ⟨c :: rest, hselected⟩
    · intro files hselected
      have hunknown : ∀ d ∈ children, d.answer = .unknown → ¬ InTime S d := by
        rcases h with hnone | hdis | hlate
        · exact absurd hin (hnone c hc hdefinite)
        · exact absurd hdis hagree
        · exact hlate
      cases files with
      | nil => exact absurd rfl (hselected.ne_nil hc hin)
      | cons d rest =>
          obtain ⟨hd, hin'⟩ := hselected.head
          -- the first answer is definite, and definite answers agree
          show d.answer = c.answer
          cases hdanswer : d.answer <;> cases hcanswer : c.answer
          case sat.unsat => exact absurd ⟨d, hd, c, hc, hdanswer, hcanswer⟩ hagree
          case unsat.sat => exact absurd ⟨c, hc, d, hd, hcanswer, hdanswer⟩ hagree
          case unknown.sat => exact absurd hin' (hunknown d hd hdanswer)
          case unknown.unsat => exact absurd hin' (hunknown d hd hdanswer)
          case sat.unknown => exact absurd hcanswer hdefinite
          case unsat.unknown => exact absurd hcanswer hdefinite
          all_goals rfl

/-- Without a timeout, an unknown answer of `z3` is returned and the unsat of `cvc4` is lost. -/
theorem not_correct_unknown :
    ¬ ∀ (S : Setting) (solvers : List String) (behaviour : String → Child),
      Correct S (forks solvers behaviour) := by
  intro h
  let behaviour : String → Child := fun name =>
    if name = "z3" then ⟨.unknown, some 1⟩ else ⟨.unsat, some 2⟩
  have hforks : forks ["z3", "cvc4"] behaviour = [⟨.unknown, some 1⟩, ⟨.unsat, some 2⟩] := by
    decide
  have hcorrect := h ⟨0, 0⟩ ["z3", "cvc4"] behaviour
  rw [hforks] at hcorrect
  have hselected : Selected ⟨0, 0⟩ [⟨.unknown, some 1⟩, ⟨.unsat, some 2⟩] [⟨.unknown, some 1⟩] :=
    @Selected.ready _ _ 1 _ (by decide) (by simp) (by simp) (List.Perm.refl _)
  have hagree : ¬ Disagree [⟨.unknown, some 1⟩, ⟨.unsat, some 2⟩] := by
    simp [Disagree]
  have hresult := (hcorrect.definite ⟨.unsat, some 2⟩ (by simp) (by simp)
    ⟨2, by simp, by decide⟩ hagree).2 _ hselected
  exact absurd hresult (by decide)

end Portfolio

end Borealis
