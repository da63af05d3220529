import Mathlib.Data.List.Forall2
import Mathlib.Data.List.GetD

/-!
# Quantified formulas

`forAll` of `SMT/Logic.stub.hpp` over the binding of the Z3 back end.  A callback is called with the
bound variables `0, …, n - 1`, as de Bruijn indices, and what it returns is quantified; the axiom of
its result is taken out of the callback as it is and put next to the quantified formula.

A callback is written as the expression that it makes, with `arg i` for its `i`-th argument.  The
arguments are used as they are wherever they stand, also under a further quantifier.
-/

namespace Borealis

namespace SMT

abbrev SortName := String

/-- An expression of the engine that has `n` arguments open. -/
inductive Quantifiable (n : ℕ)
  | arg (i : Fin n)
  | bound (ix : ℕ) (sort : SortName)
  | app (op : String) (arity : ℕ) (args : Fin arity → Quantifiable n)
  | conjunction (arity : ℕ) (args : Fin arity → Quantifiable n)
  | forall_ (sorts : List SortName) (body : Quantifiable n)

/-- A `Bool` and its axiom. -/
structure QuantifiableBool (n : ℕ) where
  expr : Quantifiable n
  axioms : Quantifiable n

/-- What the sorts, none of which is empty, and the operators stand for. -/
structure Interpretation (U : Type) where
  dom : SortName → U → Prop
  dom_nonempty : ∀ sort, ∃ value, dom sort value
  op : String → List U → U
  truth : U → Prop
  ofProp : Prop → U
  truth_ofProp : ∀ p, truth (ofProp p) ↔ p
  unbound : U

variable {U : Type} {n : ℕ}

/-- Values of these sorts. -/
def Interpretation.HasSorts (M : Interpretation U) (sorts : List SortName) (values : List U) :
    Prop :=
  List.Forall₂ M.dom sorts values

theorem Interpretation.HasSorts.length_eq {M : Interpretation U} {sorts : List SortName}
    {values : List U} (h : M.HasSorts sorts values) : sorts.length = values.length :=
  List.Forall₂.length_eq h

namespace Quantifiable

/-- The value of an expression: the arguments are in `args`, the bound variables in `env`.  The last
variable of a quantifier has index 0. -/
def eval (M : Interpretation U) (args : Fin n → U) : List U → Quantifiable n → U
  | _, .arg i => args i
  | env, .bound ix _ => env.getD ix M.unbound
  | env, .app op _ as => M.op op (List.ofFn fun i => (as i).eval M args env)
  | env, .conjunction _ as => M.ofProp (∀ i, M.truth ((as i).eval M args env))
  | env, .forall_ sorts body =>
    M.ofProp (∀ values, M.HasSorts sorts values → M.truth (body.eval M args (values.reverse ++ env)))

/-- The expression with other ones put for its arguments, as the callback is called with them. -/
def fill (bounds : Fin n → Quantifiable 0) : Quantifiable n → Quantifiable 0
  | .arg i => bounds i
  | .bound ix sort => .bound ix sort
  | .app op arity as => .app op arity fun i => (as i).fill bounds
  | .conjunction arity as => .conjunction arity fun i => (as i).fill bounds
  | .forall_ sorts body => .forall_ sorts (body.fill bounds)

/-- Some bound variable has no quantifier, when `depth` variables are bound around. -/
def FreeBound : ℕ → Quantifiable n → Prop
  | _, .arg _ => False
  | depth, .bound ix _ => depth ≤ ix
  | depth, .app _ _ as => ∃ i, (as i).FreeBound depth
  | depth, .conjunction _ as => ∃ i, (as i).FreeBound depth
  | depth, .forall_ sorts body => body.FreeBound (depth + sorts.length)

def Closed (e : Quantifiable n) : Prop :=
  ¬ e.FreeBound 0

/-- Some argument is used. -/
def MentionsArg : Quantifiable n → Prop
  | .arg _ => True
  | .bound _ _ => False
  | .app _ _ as => ∃ i, (as i).MentionsArg
  | .conjunction _ as => ∃ i, (as i).MentionsArg
  | .forall_ _ body => body.MentionsArg

/-- Some argument is used under a quantifier. -/
def CapturesArg : Quantifiable n → Prop
  | .arg _ => False
  | .bound _ _ => False
  | .app _ _ as => ∃ i, (as i).CapturesArg
  | .conjunction _ as => ∃ i, (as i).CapturesArg
  | .forall_ _ body => body.MentionsArg

end Quantifiable

/-- `mkBound` of the arguments of a callback. -/
def mkBounds (sorts : List SortName) : Fin sorts.length → Quantifiable 0 :=
  fun i => .bound i (sorts.get i)

/-- `forAll`: the value is the quantified body, the axiom the conjunction of the one axiom that was
pushed. -/
def forAll (sorts : List SortName) (func : QuantifiableBool sorts.length) : QuantifiableBool 0 where
  expr := .forall_ sorts (func.expr.fill (mkBounds sorts))
  axioms := .conjunction 1 fun _ => func.axioms.fill (mkBounds sorts)

/-- The result of `forAll` is closed, and says of all arguments what the callback says. -/
def Quantifies (sorts : List SortName) (func : QuantifiableBool sorts.length) : Prop :=
  (forAll sorts func).expr.Closed ∧ (forAll sorts func).axioms.Closed ∧
  ∀ (U : Type) (M : Interpretation U) (none : Fin 0 → U),
    (M.truth ((forAll sorts func).expr.eval M none []) ∧
      M.truth ((forAll sorts func).axioms.eval M none [])) ↔
    ∀ values (h : M.HasSorts sorts values),
      M.truth (func.axioms.eval M (fun i => values.get (i.cast h.length_eq)) []) ∧
        M.truth (func.expr.eval M (fun i => values.get (i.cast h.length_eq)) [])

/-! ## Free bound variables -/

namespace Quantifiable

/-- What is free under many binders is free under fewer. -/
theorem FreeBound.mono {e : Quantifiable n} {depth depth' : ℕ} (hle : depth ≤ depth')
    (h : e.FreeBound depth') : e.FreeBound depth := by
  induction e generalizing depth depth' with
  | arg i => exact h
  | bound ix sort => exact Nat.le_trans hle h
  | app op arity as ih =>
      obtain ⟨i, hi⟩ := h
      exact ⟨i, ih i hle hi⟩
  | conjunction arity as ih =>
      obtain ⟨i, hi⟩ := h
      exact ⟨i, ih i hle hi⟩
  | forall_ sorts body ih => exact ih (Nat.add_le_add_right hle _) h

/-- The arguments that a callback is called with are bound under its own quantifier. -/
theorem freeBound_of_fill {sorts : List SortName} {e : Quantifiable sorts.length} {depth : ℕ}
    (hdepth : sorts.length ≤ depth) (h : (e.fill (mkBounds sorts)).FreeBound depth) :
    e.FreeBound depth := by
  induction e generalizing depth with
  | arg i =>
      have hle : depth ≤ i := h
      exact absurd i.isLt (by omega)
  | bound ix sort => exact h
  | app op arity as ih =>
      obtain ⟨i, hi⟩ := h
      exact ⟨i, ih i hdepth hi⟩
  | conjunction arity as ih =>
      obtain ⟨i, hi⟩ := h
      exact ⟨i, ih i hdepth hi⟩
  | forall_ inner body ih => exact ih (Nat.le_trans hdepth (Nat.le_add_right _ _)) h

/-- Outside of the quantifier nothing binds them. -/
theorem freeBound_or_mentionsArg_of_fill {bounds : Fin n → Quantifiable 0} {e : Quantifiable n}
    {depth : ℕ} (h : (e.fill bounds).FreeBound depth) : e.FreeBound depth ∨ e.MentionsArg := by
  induction e generalizing depth with
  | arg i => exact Or.inr trivial
  | bound ix sort => exact Or.inl h
  | app op arity as ih =>
      obtain ⟨i, hi⟩ := h
      exact (ih i hi).imp (fun hfree => ⟨i, hfree⟩) fun hmentions => ⟨i, hmentions⟩
  | conjunction arity as ih =>
      obtain ⟨i, hi⟩ := h
      exact (ih i hi).imp (fun hfree => ⟨i, hfree⟩) fun hmentions => ⟨i, hmentions⟩
  | forall_ inner body ih => exact ih h

theorem FreeBound.fill {bounds : Fin n → Quantifiable 0} {e : Quantifiable n} {depth : ℕ}
    (h : e.FreeBound depth) : (e.fill bounds).FreeBound depth := by
  induction e generalizing depth with
  | arg i => exact h.elim
  | bound ix sort => exact h
  | app op arity as ih =>
      obtain ⟨i, hi⟩ := h
      exact ⟨i, ih i hi⟩
  | conjunction arity as ih =>
      obtain ⟨i, hi⟩ := h
      exact ⟨i, ih i hi⟩
  | forall_ inner body ih => exact ih h

/-- An argument that is used outside of all quantifiers is free. -/
theorem freeBound_fill_of_mentionsArg {sorts : List SortName} {e : Quantifiable sorts.length}
    (hcapture : ¬ e.CapturesArg) (h : e.MentionsArg) :
    (e.fill (mkBounds sorts)).FreeBound 0 := by
  induction e with
  | arg i => exact Nat.zero_le i
  | bound ix sort => exact h.elim
  | app op arity as ih =>
      obtain ⟨i, hi⟩ := h
      exact ⟨i, ih i (fun hc => hcapture ⟨i, hc⟩) hi⟩
  | conjunction arity as ih =>
      obtain ⟨i, hi⟩ := h
      exact ⟨i, ih i (fun hc => hcapture ⟨i, hc⟩) hi⟩
  | forall_ inner body ih => exact absurd h hcapture

/-! ## Values -/

/-- The first values are the same. -/
theorem getD_append_congr (values : List U) {env env' : List U} {none : U} {depth : ℕ}
    (henv : ∀ k < depth, env.getD k none = env'.getD k none) :
    ∀ k < depth + values.length, (values ++ env).getD k none = (values ++ env').getD k none := by
  intro k hk
  rcases Nat.lt_or_ge k values.length with hlt | hge
  · rw [List.getD_append _ _ _ _ hlt, List.getD_append _ _ _ _ hlt]
  · rw [List.getD_append_right _ _ _ _ hge, List.getD_append_right _ _ _ _ hge]
    exact henv _ (by omega)

/-- Without arguments only the bound variables count that are not free. -/
theorem eval_fill_of_not_mentionsArg (M : Interpretation U) {args : Fin n → U}
    {none : Fin 0 → U} {bounds : Fin n → Quantifiable 0} {e : Quantifiable n} {depth : ℕ}
    {env env' : List U} (hmentions : ¬ e.MentionsArg) (hfree : ¬ e.FreeBound depth)
    (henv : ∀ k < depth, env.getD k M.unbound = env'.getD k M.unbound) :
    (e.fill bounds).eval M none env = e.eval M args env' := by
  induction e generalizing depth env env' with
  | arg i => exact absurd trivial hmentions
  | bound ix sort => exact henv ix (Nat.lt_of_not_le hfree)
  | app op arity as ih =>
      have has : ∀ i, ((as i).fill bounds).eval M none env = (as i).eval M args env' := fun i =>
        ih i (fun h => hmentions ⟨i, h⟩) (fun h => hfree ⟨i, h⟩) henv
      simp only [fill, eval, has]
  | conjunction arity as ih =>
      have has : ∀ i, ((as i).fill bounds).eval M none env = (as i).eval M args env' := fun i =>
        ih i (fun h => hmentions ⟨i, h⟩) (fun h => hfree ⟨i, h⟩) henv
      simp only [fill, eval, has]
  | forall_ sorts body ih =>
      have hbody : ∀ values, M.HasSorts sorts values →
          (body.fill bounds).eval M none (values.reverse ++ env) =
            body.eval M args (values.reverse ++ env') := by
        intro values hvalues
        refine ih hmentions hfree ?_
        have hlength : values.reverse.length = sorts.length := by
          rw [List.length_reverse, hvalues.length_eq]
        rw [← hlength]
        exact getD_append_congr values.reverse henv
      simp only [fill, eval]
      refine congrArg M.ofProp (propext (forall_congr' fun values => ?_))
      exact forall_congr' fun hvalues => by rw [hbody values hvalues]

/-- Where no argument is captured, the bound variables stand for the arguments. -/
theorem eval_fill (M : Interpretation U) {sorts : List SortName} {args : Fin sorts.length → U}
    {none : Fin 0 → U} {e : Quantifiable sorts.length} {env : List U}
    (hcapture : ¬ e.CapturesArg) (hclosed : e.Closed)
    (henv : ∀ i : Fin sorts.length, env.getD i M.unbound = args i) :
    (e.fill (mkBounds sorts)).eval M none env = e.eval M args [] := by
  induction e with
  | arg i => exact henv i
  | bound ix sort => exact absurd (Nat.zero_le ix) hclosed
  | app op arity as ih =>
      have has : ∀ i, ((as i).fill (mkBounds sorts)).eval M none env = (as i).eval M args [] :=
        fun i => ih i (fun h => hcapture ⟨i, h⟩) fun h => hclosed ⟨i, h⟩
      simp only [fill, eval, has]
  | conjunction arity as ih =>
      have has : ∀ i, ((as i).fill (mkBounds sorts)).eval M none env = (as i).eval M args [] :=
        fun i => ih i (fun h => hcapture ⟨i, h⟩) fun h => hclosed ⟨i, h⟩
      simp only [fill, eval, has]
  | forall_ inner body _ =>
      exact eval_fill_of_not_mentionsArg M (e := .forall_ inner body) hcapture hclosed
        fun k hk => absurd hk (Nat.not_lt_zero k)

end Quantifiable

/-! ## What `forAll` returns -/

theorem forAll_expr_closed {sorts : List SortName} {func : QuantifiableBool sorts.length}
    (hclosed : func.expr.Closed) : (forAll sorts func).expr.Closed := by
  intro hfree
  have hdepth : (func.expr.fill (mkBounds sorts)).FreeBound (0 + sorts.length) := hfree
  have hbody := Quantifiable.freeBound_of_fill (Nat.le_add_left _ _) hdepth
  exact hclosed (hbody.mono (Nat.zero_le _))

theorem forAll_axioms_closed {sorts : List SortName} {func : QuantifiableBool sorts.length}
    (hclosed : func.axioms.Closed) (hmentions : ¬ func.axioms.MentionsArg) :
    (forAll sorts func).axioms.Closed := by
  rintro ⟨_, hfree⟩
  rcases Quantifiable.freeBound_or_mentionsArg_of_fill hfree with hfree | hargs
  · exact hclosed hfree
  · exact hmentions hargs

theorem hasSorts_reverse {M : Interpretation U} {sorts : List SortName}
    (hsorts : sorts.reverse = sorts) {values : List U} (h : M.HasSorts sorts values) :
    M.HasSorts sorts values.reverse := by
  have hreverse := List.rel_reverse h
  rwa [hsorts] at hreverse

/-- What the callback says of all arguments, in one order or the other. -/
theorem forall_reverse (M : Interpretation U) {sorts : List SortName}
    (hsorts : sorts.reverse = sorts) (P : List U → Prop) :
    (∀ values, M.HasSorts sorts values → P values.reverse) ↔
      ∀ values, M.HasSorts sorts values → P values := by
  constructor
  · intro h values hvalues
    have hvalue := h _ (hasSorts_reverse hsorts hvalues)
    rwa [List.reverse_reverse] at hvalue
  · intro h values hvalues
    exact h _ (hasSorts_reverse hsorts hvalues)

/-- The arguments are the values in the order of the indices. -/
theorem getD_append_nil_eq_get {M : Interpretation U} {sorts : List SortName} {values : List U}
    (h : M.HasSorts sorts values) (i : Fin sorts.length) :
    (values ++ []).getD i M.unbound = values.get (i.cast h.length_eq) := by
  rw [List.append_nil]
  exact List.getD_eq_getElem _ _ (h.length_eq ▸ i.isLt)

/-- The value of `forAll`: the body holds of all arguments. -/
theorem truth_forAll_expr (M : Interpretation U) (none : Fin 0 → U) {sorts : List SortName}
    {func : QuantifiableBool sorts.length} (hsorts : sorts.reverse = sorts)
    (hcapture : ¬ func.expr.CapturesArg) (hclosed : func.expr.Closed) :
    M.truth ((forAll sorts func).expr.eval M none []) ↔
      ∀ values (h : M.HasSorts sorts values),
        M.truth (func.expr.eval M (fun i => values.get (i.cast h.length_eq)) []) := by
  let bodyHolds (values : List U) : Prop := ∀ h : M.HasSorts sorts values,
    M.truth (func.expr.eval M (fun i => values.get (i.cast h.length_eq)) [])
  -- the variables are bound in the order opposite to that of the arguments
  have hbody : ∀ values, M.HasSorts sorts values →
      (M.truth ((func.expr.fill (mkBounds sorts)).eval M none (values.reverse ++ [])) ↔
        bodyHolds values.reverse) := by
    intro values hvalues
    have hreverse := hasSorts_reverse hsorts hvalues
    rw [Quantifiable.eval_fill M hcapture hclosed (getD_append_nil_eq_get hreverse)]
    exact ⟨fun h _ => h, fun h => h hreverse⟩
  change M.truth (M.ofProp _) ↔ _
  rw [M.truth_ofProp]
  calc (∀ values, M.HasSorts sorts values →
        M.truth ((func.expr.fill (mkBounds sorts)).eval M none (values.reverse ++ [])))
      ↔ ∀ values, M.HasSorts sorts values → bodyHolds values.reverse :=
        forall_congr' fun values => forall_congr' fun hvalues => hbody values hvalues
    _ ↔ ∀ values, M.HasSorts sorts values → bodyHolds values :=
        forall_reverse M hsorts bodyHolds
    _ ↔ _ := ⟨fun h values hvalues => h values hvalues hvalues, fun h values hvalues _ =>
        h values hvalues⟩

/-- The axiom of `forAll`: the axiom of the body, which is about no argument. -/
theorem truth_forAll_axioms (M : Interpretation U) (none : Fin 0 → U) {sorts : List SortName}
    {func : QuantifiableBool sorts.length} (hclosed : func.axioms.Closed)
    (hmentions : ¬ func.axioms.MentionsArg) (args : Fin sorts.length → U) :
    M.truth ((forAll sorts func).axioms.eval M none []) ↔
      M.truth (func.axioms.eval M args []) := by
  have hsame : (func.axioms.fill (mkBounds sorts)).eval M none [] = func.axioms.eval M args [] :=
    Quantifiable.eval_fill_of_not_mentionsArg M hmentions hclosed
      fun k hk => absurd hk (Nat.not_lt_zero k)
  change M.truth (M.ofProp (∀ _ : Fin 1, M.truth
    ((func.axioms.fill (mkBounds sorts)).eval M none []))) ↔ _
  rw [M.truth_ofProp, hsame]
  exact ⟨fun h => h 0, fun h _ => h⟩

/-- There are values of any sorts. -/
theorem exists_hasSorts (M : Interpretation U) (sorts : List SortName) :
    ∃ values, M.HasSorts sorts values := by
  induction sorts with
  | nil => exact ⟨[], List.Forall₂.nil⟩
  | cons sort sorts ih =>
      obtain ⟨values, hvalues⟩ := ih
      obtain ⟨value, hvalue⟩ := M.dom_nonempty sort
      exact ⟨value :: values, List.Forall₂.cons hvalue hvalues⟩

/-- The body says something about its argument in its axiom: outside of the quantifier the argument
is free. -/
theorem forAll_axiom_escapes :
    ¬ Quantifies ["bv64"] ⟨.app "=" 2 fun _ => .arg 0, .app "positive" 1 fun _ => .arg 0⟩ := by
  intro hquantifies
  exact hquantifies.2.1 ⟨0, 0, Nat.zero_le 0⟩

/-- An argument that is used under a further quantifier is taken for the variable of that one: that
any two values are equal comes out true. -/
theorem forAll_captures_argument :
    ¬ Quantifies ["s"] ⟨.forall_ ["s"] (.app "=" 2 fun i => if i = 0 then .arg 0 else .bound 0 "s"),
      .conjunction 0 Fin.elim0⟩ := by
  intro hquantifies
  let M : Interpretation Prop := {
    dom := fun _ _ => True
    dom_nonempty := fun _ => ⟨True, trivial⟩
    op := fun _ as => as.getD 0 False ↔ as.getD 1 False
    truth := id
    ofProp := id
    truth_ofProp := fun _ => Iff.rfl
    unbound := False }
  have hboth := (hquantifies.2.2 Prop M Fin.elim0).mp ⟨?_, fun _ i => i.elim0⟩
  · have hargs := (hboth [True] (List.Forall₂.cons trivial .nil)).2 [False]
      (List.Forall₂.cons trivial .nil)
    exact hargs.mp trivial
  · intro values _ values' hvalues'
    obtain ⟨value, rest, -, -, rfl⟩ := List.forall₂_cons_left_iff.mp hvalues'
    exact Iff.rfl

/-- What a callback is given and returns so that `forAll` quantifies it: sorts in an order that is
its own reverse, no argument under a further quantifier, and an axiom that is closed and about no
argument. -/
structure Quantifiable.Fits (sorts : List SortName) (func : QuantifiableBool sorts.length) :
    Prop where
  sorts : sorts.reverse = sorts
  expr : ¬ func.expr.CapturesArg
  closed : func.axioms.Closed
  axioms : ¬ func.axioms.MentionsArg

/-- `forAll` quantifies every callback that fits, and of those whose axiom uses its arguments outside
of quantifiers no one whose axiom is not closed or about an argument. -/
theorem quantifies_iff {sorts : List SortName} {func : QuantifiableBool sorts.length}
    (hclosed : func.expr.Closed) :
    (Quantifiable.Fits sorts func → Quantifies sorts func) ∧
      (Quantifies sorts func → ¬ func.axioms.CapturesArg →
        func.axioms.Closed ∧ ¬ func.axioms.MentionsArg) := by
  constructor
  · intro hfits
    refine ⟨forAll_expr_closed hclosed, forAll_axioms_closed hfits.closed hfits.axioms, ?_⟩
    intro U M none
    rw [truth_forAll_expr M none hfits.sorts hfits.expr hclosed]
    constructor
    · intro h values hvalues
      refine ⟨?_, h.1 values hvalues⟩
      exact (truth_forAll_axioms M none hfits.closed hfits.axioms _).mp h.2
    · intro h
      obtain ⟨values, hvalues⟩ := exists_hasSorts M sorts
      refine ⟨fun values hvalues => (h values hvalues).2, ?_⟩
      exact (truth_forAll_axioms M none hfits.closed hfits.axioms _).mpr (h values hvalues).1
  · intro hquantifies hcapture
    have haxioms := hquantifies.2.1
    refine ⟨fun hfree => haxioms ⟨0, hfree.fill⟩, fun hmentions => ?_⟩
    exact haxioms ⟨0, Quantifiable.freeBound_fill_of_mentionsArg hcapture hmentions⟩

/-- A body that says its argument equals itself, without an axiom. -/
theorem quantifies_iff_plain :
    Quantifies ["bv64"] ⟨.app "=" 2 fun _ => .arg 0, .conjunction 0 Fin.elim0⟩ := by
  have hclosed : (Quantifiable.app "=" 2 fun _ => .arg (0 : Fin 1)).Closed := by
    intro h
    obtain ⟨_, h⟩ := h
    exact h
  refine (quantifies_iff hclosed).1 ⟨rfl, ?_, ?_, ?_⟩ <;>
  · intro h
    obtain ⟨i, h⟩ := h
    first | exact h | exact i.elim0

end SMT

end Borealis
