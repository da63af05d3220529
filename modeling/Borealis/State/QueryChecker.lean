import Borealis.Interpreter.Interval
import Borealis.State.PredicateState
import Borealis.Term.Predicate

/-!
# Queries to the interpreter of predicate states

`QueryChecker` goes through the predicates of a query with a flag that starts true.  It evaluates
the terms of each predicate in the state of the interpreter, and then clears the flag if the
domains do not show the predicate; but it looks at inequalities and at equalities with a boolean
constant only.  The flag is the verdict of `OneForOneInterpreter::check`.

The abstract domains and the operations on them are a parameter.

## Strategy

The flag is never set again (`foldlM_satisfied`), so that it was true before and after each
predicate if it is true at the end, and then the domains show the predicate (`holds_of_shown`).
-/

namespace Borealis

/-- The operations of `AbstractFactory`, `VariableFactory` and the interpreter state that the
checker uses.  Nothing stands for a failed assertion, and `asBool` is the cast to `BoolT`. -/
structure DomainOps (D : Type) where
  asBool : D → Option (Interval.Ptr false 1)
  arith : ArithType → D → D → Option D
  compare : ConditionType → D → D → Option D
  bound : D → Option D
  cast : (fromType toType : Ty) → (signExtend : Bool) → D → Option D
  gep : (Term → Option D) → Term → Option (Term → Option D)
  top : Ty → D
  findGlobal : String → Option D

/-- The fields of `QueryChecker` that change: the state and the flag. -/
structure QueryChecker (D : Type) where
  domains : Term → Option D
  satisfied : Bool

namespace QueryChecker

variable {D : Type} (F : DomainOps D)

/-- `getTrueTerm`. -/
def trueTerm : Term := .mk 0 (.opaqueBoolConstant true) .bool "true" []

/-- `getFalseTerm`. -/
def falseTerm : Term := .mk 0 (.opaqueBoolConstant false) .bool "false" []

/-- `state_->assign`: terms that are equal share their domain. -/
def assign (q : QueryChecker D) (term : Term) (domain : D) : QueryChecker D :=
  { q with domains := fun u => if u.equals term then some domain else q.domains u }

/-- `state_->get` of a subterm. -/
def getSubterm (q : QueryChecker D) (term : Term) (i : ℕ) : Option D :=
  term.getSubterms[i]?.bind q.domains

/-- The assertion that both operands have a domain, and the result of the operation. -/
def transformOperands (q : QueryChecker D) (term : Term) (op : D → D → Option D) :
    Option (QueryChecker D) :=
  if (q.domains term).isSome then some q
  else do
    let lhv ← q.getSubterm term 0
    let rhv ← q.getSubterm term 1
    let result ← op lhv rhv
    return q.assign term result

/-- The `transform` of the class of a term. -/
def transformTerm (q : QueryChecker D) (term : Term) : Option (QueryChecker D) :=
  match term.cls with
  | .argument _ _ => some (q.assign term ((q.domains term).getD (F.top term.getType)))
  | .binary opcode =>
    if !q.satisfied then some q else q.transformOperands term (F.arith opcode)
  | .bound =>
    if !q.satisfied then some q
    else do
      let ptr ← q.getSubterm term 0
      let bound ← F.bound ptr
      return q.assign term bound
  | .cast signExtend =>
    if !q.satisfied then some q
    else do
      let rhv ← term.getSubterms[0]?
      let cast ← q.domains rhv
      let result ← F.cast rhv.getType term.getType signExtend cast
      return q.assign term result
  | .cmp opcode =>
    if !q.satisfied then some q else q.transformOperands term (F.compare opcode)
  | .gep _ =>
    if !q.satisfied then some q
    else (F.gep q.domains term).map fun domains => { q with domains }
  | .opaqueUndef =>
    if !q.satisfied then some q else some (q.assign term (F.top term.getType))
  | .readProperty => some { q with satisfied := false }
  | .value global =>
    if (q.domains term).isSome then some q
    else if global then (F.findGlobal term.getName).map (q.assign term)
    else some (q.assign term (F.top term.getType))
  | _ => some q

/-- `transformEqualityPredicate`. -/
def transformEqualityPredicate (q : QueryChecker D) (lhv rhv : Term) : Option (QueryChecker D) :=
  if !q.satisfied then some q
  else do
    let cond ← q.domains lhv
    if rhv.equals trueTerm then
      let boolean ← F.asBool cond
      return { q with satisfied := q.satisfied && boolean.isConstantInt 1 }
    else if rhv.equals falseTerm then
      let boolean ← F.asBool cond
      return { q with satisfied := q.satisfied && boolean.isConstantInt 0 }
    else return q

/-- `transformInequalityPredicate`. -/
def transformInequalityPredicate (q : QueryChecker D) (lhv rhv : Term) :
    Option (QueryChecker D) :=
  if !q.satisfied then some q
  else do
    let lhv ← q.domains lhv
    let rhv ← q.domains rhv
    let res ← F.compare .neq lhv rhv
    let boolean ← F.asBool res
    return { q with satisfied := q.satisfied && boolean.isConstantInt 1 }

/-- The terms of a predicate are transformed first, subterms before the terms. -/
def transformTerms (q : QueryChecker D) (p : Predicate) : Option (QueryChecker D) :=
  (p.getOperands.flatMap Term.collected).foldlM (transformTerm F) q

/-- The predicate itself; other classes have no `transform` of their own. -/
def transformSelf (q : QueryChecker D) : Predicate → Option (QueryChecker D)
  | .equality _ lhv rhv => transformEqualityPredicate F q lhv rhv
  | .inequality _ lhv rhv => transformInequalityPredicate F q lhv rhv
  | _ => some q

/-- `transform` of a predicate. -/
def transformPredicate (q : QueryChecker D) (p : Predicate) : Option (QueryChecker D) :=
  (transformTerms F q p).bind fun q => transformSelf F q p

mutual
/-- The predicates of a state in the order they are transformed. -/
def predicates : PredicateState Predicate → List Predicate
  | .basic data => data
  | .chain base curr => predicates base ++ predicates curr
  | .choice choices => predicatesAll choices

/-- The same for the alternatives of a choice. -/
def predicatesAll : List (PredicateState Predicate) → List Predicate
  | [] => []
  | c :: cs => predicates c ++ predicatesAll cs
end

/-- `transform` of the query. -/
def run (q : QueryChecker D) (ps : List Predicate) : Option (QueryChecker D) :=
  ps.foldlM (transformPredicate F) q

/-- `OneForOneInterpreter::check`, from the state of the interpreter on. -/
def check (domains : Term → Option D) (query : PredicateState Predicate) : Option Bool :=
  (run F ⟨domains, true⟩ (predicates query)).map fun q => !q.satisfied

/-! ## The flag -/

variable {F}

/-- No term sets the flag. -/
theorem transformTerm_satisfied {q q' : QueryChecker D} {term : Term}
    (h : transformTerm F q term = some q') (hq' : q'.satisfied = true) : q.satisfied = true := by
  by_contra hq
  have hq : q.satisfied = false := by simpa using hq
  unfold transformTerm at h
  simp only [hq, Bool.not_false, if_true] at h
  split at h
  all_goals first
    | (obtain rfl := Option.some.inj h
       simp_all [assign])
    | skip
  split at h
  · obtain rfl := Option.some.inj h
    simp_all
  · split at h
    · obtain ⟨domain, -, rfl⟩ := Option.map_eq_some_iff.mp h
      simp_all [assign]
    · obtain rfl := Option.some.inj h
      simp_all [assign]

/-- No predicate sets the flag. -/
theorem transformSelf_satisfied {q q' : QueryChecker D} {p : Predicate}
    (h : transformSelf F q p = some q') (hq' : q'.satisfied = true) : q.satisfied = true := by
  by_contra hq
  have hq : q.satisfied = false := by simpa using hq
  have hsame : q' = q := by
    cases p <;>
      simp_all [transformSelf, transformEqualityPredicate, transformInequalityPredicate]
  rw [hsame, hq] at hq'
  cases hq'

/-- A flag that no step sets was true before the steps if it is true afterwards. -/
theorem foldlM_satisfied {α : Type} {step : QueryChecker D → α → Option (QueryChecker D)}
    (hstep : ∀ {q q' : QueryChecker D} {x : α}, step q x = some q' → q'.satisfied = true →
      q.satisfied = true) {q q' : QueryChecker D} {l : List α} (h : l.foldlM step q = some q')
    (hq' : q'.satisfied = true) : q.satisfied = true := by
  induction l generalizing q with
  | nil =>
      obtain rfl := Option.some.inj h
      exact hq'
  | cons x l ih =>
      rw [List.foldlM_cons] at h
      obtain ⟨q₁, hfirst, hrest⟩ := Option.bind_eq_some_iff.mp h
      exact hstep hfirst (ih hrest)

theorem transformPredicate_satisfied {q q' : QueryChecker D} {p : Predicate}
    (h : transformPredicate F q p = some q') (hq' : q'.satisfied = true) :
    q.satisfied = true := by
  obtain ⟨q₁, hterms, hself⟩ := Option.bind_eq_some_iff.mp h
  exact foldlM_satisfied transformTerm_satisfied hterms (transformSelf_satisfied hself hq')

/-! ## Valuations -/

/-- The valuations of the terms, those that satisfy the state, and the values a domain stands
for. -/
structure Meanings (D V Value : Type) where
  eval : V → Term → Value
  ofBit : BitVec 1 → Value
  satisfies : V → Prop
  holdsOther : V → Predicate → Prop
  contains : D → Value → Prop

variable {V Value : Type} {M : Meanings D V Value}

/-- A valuation satisfies a predicate. -/
def Meanings.Holds (M : Meanings D V Value) (v : V) : Predicate → Prop
  | .equality _ lhv rhv => M.eval v lhv = M.eval v rhv
  | .inequality _ lhv rhv => M.eval v lhv ≠ M.eval v rhv
  | p => M.holdsOther v p

/-- What the checker relies on: booleans are bits, a boolean domain is an interval of bits, and
the domain of an inequality contains its value. -/
structure Meanings.Sound (M : Meanings D V Value) (F : DomainOps D) : Prop where
  eval_true : ∀ v t, t.equals trueTerm = true → M.eval v t = M.ofBit 1
  eval_false : ∀ v t, t.equals falseTerm = true → M.eval v t = M.ofBit 0
  ofBit_injective : ∀ b b', M.ofBit b = M.ofBit b' → b = b'
  asBool : ∀ d b x, F.asBool d = some b → M.contains d x →
    ∃ bit, x = M.ofBit bit ∧ (⟨bit⟩ : BitInt false 1) ∈ b.toInterval
  compare_neq : ∀ d e r x y, F.compare .neq d e = some r → M.contains d x → M.contains e y →
    ∃ bit, M.contains r (M.ofBit bit) ∧ (bit = 1 ↔ x ≠ y)

/-- The domains contain the values of their terms in every valuation that satisfies the state. -/
def Meanings.Contains (M : Meanings D V Value) (domains : Term → Option D) : Prop :=
  ∀ t d, domains t = some d → ∀ v, M.satisfies v → M.contains d (M.eval v t)

/-- The predicates the checker looks at. -/
def Recognised : Predicate → Prop
  | .equality _ _ rhv => rhv.equals trueTerm = true ∨ rhv.equals falseTerm = true
  | .inequality _ _ _ => True
  | _ => False

/-! ## The verdict -/

/-- A constant interval of bits has one member. -/
theorem eq_of_isConstantInt {b : Interval false 1} {bit : BitVec 1} (n : BitVec 1)
    (hconstant : b.isConstantInt n.toNat = true) (hbit : (⟨bit⟩ : BitInt false 1) ∈ b) :
    bit = n := by
  obtain ⟨-, hcontains⟩ := hbit
  simp only [Interval.isConstantInt, Bool.and_eq_true, beq_iff_eq] at hconstant
  simp only [Interval.contains, hconstant.1, hconstant.2] at hcontains
  clear hconstant
  revert n bit
  decide

/-- A predicate that the domains show is satisfied. -/
theorem holds_of_shown (hsound : M.Sound F) {q q' : QueryChecker D} {p : Predicate}
    (hcontains : M.Contains q.domains) (hrecognised : Recognised p)
    (h : transformSelf F q p = some q') (hq' : q'.satisfied = true) {v : V}
    (hv : M.satisfies v) : M.Holds v p := by
  have hq := transformSelf_satisfied h hq'
  cases p with
  | equality type lhv rhv =>
      simp only [transformSelf, transformEqualityPredicate, hq, Bool.not_true, Bool.false_eq_true,
        if_false, bind, Option.bind_eq_some_iff] at h
      obtain ⟨cond, hcond, h⟩ := h
      have hvalue := hcontains lhv cond hcond v hv
      show M.eval v lhv = M.eval v rhv
      split at h
      · next htrue =>
          simp only [Option.bind_eq_some_iff, pure, Option.some.injEq] at h
          obtain ⟨boolean, hbool, rfl⟩ := h
          obtain ⟨bit, heq, hbit⟩ := hsound.asBool _ _ _ hbool hvalue
          rw [heq, hsound.eval_true v rhv htrue, eq_of_isConstantInt 1 (by simpa using hq') hbit]
      · next htrue =>
          have hfalse : rhv.equals falseTerm = true := hrecognised.resolve_left htrue
          simp only [hfalse, if_true, Option.bind_eq_some_iff, pure, Option.some.injEq] at h
          obtain ⟨boolean, hbool, rfl⟩ := h
          obtain ⟨bit, heq, hbit⟩ := hsound.asBool _ _ _ hbool hvalue
          rw [heq, hsound.eval_false v rhv hfalse, eq_of_isConstantInt 0 (by simpa using hq') hbit]
  | inequality type lhv rhv =>
      simp only [transformSelf, transformInequalityPredicate, hq, Bool.not_true,
        Bool.false_eq_true, if_false, bind, Option.bind_eq_some_iff, pure,
        Option.some.injEq] at h
      obtain ⟨dl, hdl, dr, hdr, res, hres, boolean, hbool, rfl⟩ := h
      obtain ⟨bit, hbit, hne⟩ := hsound.compare_neq _ _ _ _ _ hres (hcontains lhv dl hdl v hv)
        (hcontains rhv dr hdr v hv)
      obtain ⟨bit', heq, hbit'⟩ := hsound.asBool _ _ _ hbool hbit
      obtain rfl := hsound.ofBit_injective _ _ heq
      exact hne.mp (eq_of_isConstantInt 1 (by simpa using hq') hbit')
  | _ => exact hrecognised.elim

end QueryChecker

/-! ## Two queries -/

/-- A variable `x` or `y`. -/
def queryVariable (name : String) : Term := .mk 0 (.value false) .bool name []

/-- Domains of bits, without operations on them. -/
def bitOps : DomainOps (Interval.Ptr false 1) where
  asBool := some
  arith _ _ _ := none
  compare _ _ _ := none
  bound _ := none
  cast _ _ _ _ := none
  gep _ _ := none
  top _ := Interval.top
  findGlobal _ := none

/-- One valuation: `x` and the true term are one, and everything else is zero. -/
def bitMeanings : QueryChecker.Meanings (Interval.Ptr false 1) Unit (BitVec 1) where
  eval _ t := if t.getName = "x" ∨ t.getName = "true" then 1 else 0
  ofBit := id
  satisfies _ := True
  holdsOther _ _ := True
  contains d x := (⟨x⟩ : BitInt false 1) ∈ d.toInterval

theorem bitMeanings_sound : bitMeanings.Sound bitOps where
  eval_true _ t ht := by
    obtain ⟨obj, cls, type, name, subterms⟩ := t
    simp only [Term.equals, QueryChecker.trueTerm, Bool.and_eq_true, decide_eq_true_eq] at ht
    simp [bitMeanings, Term.getName, ht.1.2]
  eval_false _ t ht := by
    obtain ⟨obj, cls, type, name, subterms⟩ := t
    simp only [Term.equals, QueryChecker.falseTerm, Bool.and_eq_true, decide_eq_true_eq] at ht
    simp [bitMeanings, Term.getName, ht.1.2]
  ofBit_injective _ _ h := h
  asBool d b x hd hx := by
    obtain rfl := Option.some.inj hd
    exact ⟨x, rfl, hx⟩
  compare_neq _ _ _ _ _ h := by cases h

/-- The variables have these domains. -/
def bitDomains (x y : Interval.Ptr false 1) (t : Term) : Option (Interval.Ptr false 1) :=
  if t.getName = "x" then some x else if t.getName = "y" then some y else none

theorem bitMeanings_contains {x y : Interval.Ptr false 1}
    (hx : (⟨1⟩ : BitInt false 1) ∈ x.toInterval) (hy : (⟨0⟩ : BitInt false 1) ∈ y.toInterval) :
    bitMeanings.Contains (bitDomains x y) := by
  intro t d hd v _
  unfold bitDomains at hd
  split at hd
  · next hname =>
      obtain rfl := Option.some.inj hd
      simpa [bitMeanings, hname] using hx
  · next hname =>
      split at hd
      · next hname' =>
          obtain rfl := Option.some.inj hd
          simpa [bitMeanings, hname'] using hy
      · cases hd

/-- The domains that are found for a query of one predicate, if its terms have them already. -/
theorem found_singleton {p : Predicate} {domains : Term → Option (Interval.Ptr false 1)}
    (hterms : QueryChecker.transformTerms bitOps ⟨domains, true⟩ p = some ⟨domains, true⟩)
    (hcontains : bitMeanings.Contains domains) :
    ∀ before p' after q q', QueryChecker.predicates (.basic [p]) = before ++ p' :: after →
      QueryChecker.run bitOps ⟨domains, true⟩ before = some q →
      QueryChecker.transformTerms bitOps q p' = some q' → bitMeanings.Contains q'.domains := by
  intro before p' after q q' hsplit hrun hfound
  cases before with
  | nil =>
      obtain ⟨rfl, -⟩ := List.cons.inj hsplit
      obtain rfl := Option.some.inj hrun
      rw [hterms] at hfound
      obtain rfl := Option.some.inj hfound
      exact hcontains
  | cons b before => simp [QueryChecker.predicates] at hsplit

end Borealis