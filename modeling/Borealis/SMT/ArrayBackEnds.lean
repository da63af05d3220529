import Borealis.SMT.Logic

/-!
# The array back ends

`TheoryArray` and `InlinedFuncArray` of `SMT/Logic.stub.hpp` behind one interface, and what a
sequence of array operations builds with either.  The first keeps the term of an array and drops the
axioms of whatever it is given; the second is a closure of conditional expressions that is evaluated
at each read, and collects the axioms of its conditions, elements and indices.

A sequence is written as the term of the array that it ends with: the arrays, and the elements that
were read from them, stand where they are used.
-/

namespace Borealis

namespace SMT

variable {V I E α : Type}

/-! ## Conditional expressions -/

namespace ValueExpr

/-- `if_(cond).then_(t).else_(e)`, with the axioms of all three. -/
def ifThenElse (cond : ValueExpr V Bool) (t e : ValueExpr V α) : ValueExpr V α where
  expr ρ := if cond.expr ρ then t.expr ρ else e.expr ρ
  axioms ρ := cond.axioms ρ ∧ t.axioms ρ ∧ e.axioms ρ

/-- `==`, with the axioms of both. -/
def equal [DecidableEq α] (l r : ValueExpr V α) : ValueExpr V Bool where
  expr ρ := decide (l.expr ρ = r.expr ρ)
  axioms ρ := l.axioms ρ ∧ r.axioms ρ

/-- `switch_` over conditions. -/
def switchOver (cases : List (ValueExpr V Bool × ValueExpr V α)) (default : ValueExpr V α) :
    ValueExpr V α :=
  cases.foldl (fun b a => ifThenElse a.1 a.2 b) default

/-- `switch_` over values. -/
def switchOn [DecidableEq I] (cond : ValueExpr V I)
    (cases : List (ValueExpr V I × ValueExpr V α)) (default : ValueExpr V α) : ValueExpr V α :=
  cases.foldl (fun b a => ifThenElse (equal cond a.1) a.2 b) default

end ValueExpr

/-! ## The interface -/

/-- What an array back end offers. -/
structure ArrayBackEnd (V I E : Type) where
  Arr : Type
  mkDefault : ValueExpr V E → Arr
  store : Arr → ValueExpr V I → ValueExpr V E → Arr
  storeAll : Arr → List (ValueExpr V I × ValueExpr V E) → Arr
  merge : Arr → List (ValueExpr V Bool × Arr) → Arr
  select : Arr → ValueExpr V I → ValueExpr V E

variable [DecidableEq I]

/-- `TheoryArray`. -/
def theoryArray (V I E : Type) [DecidableEq I] : ArrayBackEnd V I E where
  Arr := ValueExpr V (I → E)
  mkDefault deflt := ⟨fun ρ _ => deflt.expr ρ, fun _ => True⟩
  store a i e := ⟨fun ρ => Function.update (a.expr ρ) (i.expr ρ) (e.expr ρ), fun _ => True⟩
  storeAll a entries :=
    ⟨fun ρ => entries.foldl
      (fun base entry => Function.update base (entry.1.expr ρ) (entry.2.expr ρ)) (a.expr ρ),
      fun _ => True⟩
  merge defaultArray arrays := ValueExpr.switchOver arrays defaultArray
  select a i := ⟨fun ρ => a.expr ρ (i.expr ρ), fun _ => True⟩

/-- `InlinedFuncArray`: an array is the function that reads it. -/
def inlinedFuncArray (V I E : Type) [DecidableEq I] : ArrayBackEnd V I E where
  Arr := ValueExpr V I → ValueExpr V E
  mkDefault deflt := fun _ => deflt
  store old i e := fun j => ValueExpr.ifThenElse (ValueExpr.equal j i) e (old j)
  storeAll old entries := fun j => ValueExpr.switchOn j entries (old j)
  merge defaultArray arrays := fun j =>
    ValueExpr.switchOver (arrays.map fun e => (e.1, e.2 j)) (defaultArray j)
  select inner i := inner i

/-! ## What a sequence builds -/

mutual
/-- An array that a sequence of operations makes. -/
inductive ArrayTerm (V I E : Type)
  | mkDefault (deflt : ElemTerm V I E)
  | store (a : ArrayTerm V I E) (i : ValueExpr V I) (e : ElemTerm V I E)
  | storeAll (a : ArrayTerm V I E) (entries : List (ValueExpr V I × ElemTerm V I E))
  | merge (defaultArray : ArrayTerm V I E) (arrays : List (ValueExpr V Bool × ArrayTerm V I E))

/-- An element: any expression, or what was read before. -/
inductive ElemTerm (V I E : Type)
  | given (e : ValueExpr V E)
  | select (a : ArrayTerm V I E) (i : ValueExpr V I)
end

mutual
/-- The array that a back end builds. -/
def ArrayTerm.build (B : ArrayBackEnd V I E) : ArrayTerm V I E → B.Arr
  | .mkDefault deflt => B.mkDefault (deflt.build B)
  | .store a i e => B.store (a.build B) i (e.build B)
  | .storeAll a entries => B.storeAll (a.build B) (buildEntries B entries)
  | .merge defaultArray arrays => B.merge (defaultArray.build B) (buildArrays B arrays)

def ElemTerm.build (B : ArrayBackEnd V I E) : ElemTerm V I E → ValueExpr V E
  | .given e => e
  | .select a i => B.select (a.build B) i

def buildEntries (B : ArrayBackEnd V I E) :
    List (ValueExpr V I × ElemTerm V I E) → List (ValueExpr V I × ValueExpr V E)
  | [] => []
  | (i, e) :: entries => (i, e.build B) :: buildEntries B entries

def buildArrays (B : ArrayBackEnd V I E) :
    List (ValueExpr V Bool × ArrayTerm V I E) → List (ValueExpr V Bool × B.Arr)
  | [] => []
  | (cond, a) :: arrays => (cond, a.build B) :: buildArrays B arrays
end

mutual
/-- The axioms that the operations of an array were given, with those of the index it is read at
wherever that is compared. -/
def ArrayTerm.carried : ArrayTerm V I E → (Assignment V → Prop) → Assignment V → Prop
  | .mkDefault deflt, _, ρ => deflt.carried ρ
  | .store a i e, index, ρ =>
    ((index ρ ∧ i.axioms ρ) ∧ e.carried ρ) ∧ a.carried index ρ
  | .storeAll a entries, index, ρ => carriedByEntries entries index ρ ∧ a.carried index ρ
  | .merge defaultArray arrays, index, ρ =>
    carriedByArrays arrays index ρ ∧ defaultArray.carried index ρ

def ElemTerm.carried : ElemTerm V I E → Assignment V → Prop
  | .given e, ρ => e.axioms ρ
  | .select a i, ρ => a.carried i.axioms ρ

def carriedByEntries : List (ValueExpr V I × ElemTerm V I E) → (Assignment V → Prop) →
    Assignment V → Prop
  | [], _, _ => True
  | (i, e) :: entries, index, ρ =>
    ((index ρ ∧ i.axioms ρ) ∧ e.carried ρ) ∧ carriedByEntries entries index ρ

def carriedByArrays : List (ValueExpr V Bool × ArrayTerm V I E) → (Assignment V → Prop) →
    Assignment V → Prop
  | [], _, _ => True
  | (cond, a) :: arrays, index, ρ =>
    (cond.axioms ρ ∧ a.carried index ρ) ∧ carriedByArrays arrays index ρ
end

/-! ## Switches -/

namespace ValueExpr

/-- The axioms of a switch are those of all its cases. -/
theorem switchOver_axioms (cases : List (ValueExpr V Bool × ValueExpr V α))
    (default : ValueExpr V α) (ρ : Assignment V) :
    (switchOver cases default).axioms ρ ↔
      (∀ c ∈ cases, c.1.axioms ρ ∧ c.2.axioms ρ) ∧ default.axioms ρ := by
  unfold switchOver
  induction cases generalizing default with
  | nil =>
      rw [List.foldl_nil, and_iff_right]
      exact fun c hc => absurd hc List.not_mem_nil
  | cons c cases ih =>
      rw [List.foldl_cons, ih, List.forall_mem_cons]
      change _ ∧ c.1.axioms ρ ∧ c.2.axioms ρ ∧ default.axioms ρ ↔ _
      tauto

theorem switchOn_eq (cond : ValueExpr V I) (cases : List (ValueExpr V I × ValueExpr V α))
    (default : ValueExpr V α) :
    switchOn cond cases default =
      switchOver (cases.map fun c => (equal cond c.1, c.2)) default := by
  unfold switchOn switchOver
  rw [List.foldl_map]

/-- The value of a switch, from the values of its cases. -/
theorem switchOver_expr (cases : List (ValueExpr V Bool × ValueExpr V α))
    (default : ValueExpr V α) (ρ : Assignment V) :
    (switchOver cases default).expr ρ =
      cases.foldl (fun b a => if a.1.expr ρ then a.2.expr ρ else b) (default.expr ρ) := by
  unfold switchOver
  induction cases generalizing default with
  | nil => rfl
  | cons c cases ih =>
      rw [List.foldl_cons, List.foldl_cons, ih]
      rfl

end ValueExpr

/-- Stores one after the other, read at one index. -/
theorem foldl_update_apply {β : Type} (key : β → I) (value : β → E) (entries : List β) (f : I → E)
    (j : I) :
    entries.foldl (fun base entry => Function.update base (key entry) (value entry)) f j =
      entries.foldl (fun b entry => if j = key entry then value entry else b) (f j) := by
  induction entries generalizing f with
  | nil => rfl
  | cons entry entries ih =>
      rw [List.foldl_cons, List.foldl_cons, ih, Function.update_apply]

omit [DecidableEq I] in
/-- Choices between functions, read at one argument. -/
theorem foldl_ite_apply {β : Type} (cond : β → Bool) (f : β → I → E) (cases : List β)
    (default : I → E) (j : I) :
    cases.foldl (fun b c => if cond c then f c else b) default j =
      cases.foldl (fun b c => if cond c then f c j else b) (default j) := by
  induction cases generalizing default with
  | nil => rfl
  | cons c cases ih =>
      rw [List.foldl_cons, List.foldl_cons, ih]
      congr 1
      split <;> rfl

/-! ## Values -/

namespace ArrayBackEnd

theorem storeAll_expr (a : (theoryArray V I E).Arr)
    (entries : List (ValueExpr V I × ValueExpr V E)) (j : I) (ρ : Assignment V) :
    ((theoryArray V I E).storeAll a entries).expr ρ j =
      (entries.map fun e => (e.1.expr ρ, e.2.expr ρ)).foldl
        (fun b e => if j = e.1 then e.2 else b) (a.expr ρ j) := by
  change entries.foldl _ (a.expr ρ) j = _
  rw [foldl_update_apply, List.foldl_map]

theorem switchOn_expr (j : ValueExpr V I) (entries : List (ValueExpr V I × ValueExpr V E))
    (old : ValueExpr V E) (ρ : Assignment V) :
    (ValueExpr.switchOn j entries old).expr ρ =
      (entries.map fun e => (e.1.expr ρ, e.2.expr ρ)).foldl
        (fun b e => if j.expr ρ = e.1 then e.2 else b) (old.expr ρ) := by
  rw [ValueExpr.switchOn_eq, ValueExpr.switchOver_expr, List.foldl_map, List.foldl_map]
  simp only [ValueExpr.equal, decide_eq_true_eq]

omit [DecidableEq I] in
theorem switchOver_array_expr (a : ValueExpr V (I → E))
    (arrays : List (ValueExpr V Bool × ValueExpr V (I → E))) (j : I) (ρ : Assignment V) :
    (ValueExpr.switchOver arrays a).expr ρ j =
      (arrays.map fun e => (e.1.expr ρ, e.2.expr ρ j)).foldl
        (fun b e => if e.1 then e.2 else b) (a.expr ρ j) := by
  rw [ValueExpr.switchOver_expr, foldl_ite_apply, List.foldl_map]

theorem merge_inlined_expr (a : (inlinedFuncArray V I E).Arr)
    (arrays : List (ValueExpr V Bool × (inlinedFuncArray V I E).Arr)) (j : ValueExpr V I)
    (ρ : Assignment V) :
    ((inlinedFuncArray V I E).merge a arrays j).expr ρ =
      (arrays.map fun e => (e.1.expr ρ, (e.2 j).expr ρ)).foldl
        (fun b e => if e.1 then e.2 else b) ((a j).expr ρ) := by
  change (ValueExpr.switchOver (arrays.map fun e => (e.1, e.2 j)) (a j)).expr ρ = _
  rw [ValueExpr.switchOver_expr, List.foldl_map, List.foldl_map]

end ArrayBackEnd

open ArrayBackEnd in
mutual
/-- Both back ends read the same value at every index. -/
theorem ArrayTerm.build_expr (ρ : Assignment V) (j : ValueExpr V I) : ∀ a : ArrayTerm V I E,
    (a.build (theoryArray V I E)).expr ρ (j.expr ρ) =
      (a.build (inlinedFuncArray V I E) j).expr ρ
  | .mkDefault deflt => deflt.build_expr ρ
  | .store a i e => by
      have ha := a.build_expr ρ j
      have he := e.build_expr ρ
      rw [ArrayTerm.build, ArrayTerm.build]
      change Function.update ((a.build (theoryArray V I E)).expr ρ) (i.expr ρ)
        ((e.build (theoryArray V I E)).expr ρ) (j.expr ρ) = if decide (j.expr ρ = i.expr ρ) then
          (e.build (inlinedFuncArray V I E)).expr ρ
          else (a.build (inlinedFuncArray V I E) j).expr ρ
      rw [Function.update_apply, ha, he]
      simp only [decide_eq_true_eq]
  | .storeAll a entries => by
      rw [ArrayTerm.build, ArrayTerm.build, storeAll_expr, buildEntries_expr ρ entries,
        a.build_expr ρ j]
      exact (switchOn_expr j _ _ ρ).symm
  | .merge a arrays => by
      rw [ArrayTerm.build, ArrayTerm.build, merge_inlined_expr, ← buildArrays_expr ρ j arrays,
        ← a.build_expr ρ j]
      exact switchOver_array_expr _ _ (j.expr ρ) ρ

theorem ElemTerm.build_expr (ρ : Assignment V) : ∀ e : ElemTerm V I E,
    (e.build (theoryArray V I E)).expr ρ = (e.build (inlinedFuncArray V I E)).expr ρ
  | .given _ => rfl
  | .select a i => a.build_expr ρ i

theorem buildEntries_expr (ρ : Assignment V) : ∀ entries : List (ValueExpr V I × ElemTerm V I E),
    ((buildEntries (theoryArray V I E) entries).map fun e => (e.1.expr ρ, e.2.expr ρ)) =
      (buildEntries (inlinedFuncArray V I E) entries).map fun e => (e.1.expr ρ, e.2.expr ρ)
  | [] => by rw [buildEntries, buildEntries]
  | (i, e) :: entries => by
      rw [buildEntries, buildEntries, List.map_cons, List.map_cons, e.build_expr ρ,
        buildEntries_expr ρ entries]

theorem buildArrays_expr (ρ : Assignment V) (j : ValueExpr V I) :
    ∀ arrays : List (ValueExpr V Bool × ArrayTerm V I E),
      ((buildArrays (theoryArray V I E) arrays).map fun e => (e.1.expr ρ, e.2.expr ρ (j.expr ρ))) =
        (buildArrays (inlinedFuncArray V I E) arrays).map fun e => (e.1.expr ρ, (e.2 j).expr ρ)
  | [] => by rw [buildArrays, buildArrays, List.map_nil, List.map_nil]
  | (cond, a) :: arrays => by
      rw [buildArrays, buildArrays, List.map_cons, List.map_cons, a.build_expr ρ j,
        buildArrays_expr ρ j arrays]
end

/-! ## Axioms -/

/-- A read of a term of an array has no axioms. -/
theorem theoryArray_select_axioms (a : (theoryArray V I E).Arr) (i : ValueExpr V I)
    (ρ : Assignment V) : ((theoryArray V I E).select a i).axioms ρ :=
  trivial

mutual
/-- A read of a closure has the axioms that its operations were given, and those of the index. -/
theorem ArrayTerm.build_axioms (ρ : Assignment V) (j : ValueExpr V I) : ∀ a : ArrayTerm V I E,
    (a.build (inlinedFuncArray V I E) j).axioms ρ ↔ a.carried j.axioms ρ
  | .mkDefault deflt => by
      rw [ArrayTerm.build, ArrayTerm.carried]
      exact deflt.build_axioms ρ
  | .store a i e => by
      rw [ArrayTerm.build, ArrayTerm.carried, ← a.build_axioms ρ j, ← e.build_axioms ρ, and_assoc]
      exact Iff.rfl
  | .storeAll a entries => by
      rw [ArrayTerm.build, ArrayTerm.carried, ← a.build_axioms ρ j,
        ← buildEntries_axioms ρ j entries]
      change (ValueExpr.switchOn j _ _).axioms ρ ↔ _
      rw [ValueExpr.switchOn_eq, ValueExpr.switchOver_axioms]
  | .merge a arrays => by
      rw [ArrayTerm.build, ArrayTerm.carried, ← a.build_axioms ρ j,
        ← buildArrays_axioms ρ j arrays]
      change (ValueExpr.switchOver _ _).axioms ρ ↔ _
      rw [ValueExpr.switchOver_axioms]
      exact Iff.rfl

theorem ElemTerm.build_axioms (ρ : Assignment V) : ∀ e : ElemTerm V I E,
    (e.build (inlinedFuncArray V I E)).axioms ρ ↔ e.carried ρ
  | .given _ => by rw [ElemTerm.build, ElemTerm.carried]
  | .select a i => by
      rw [ElemTerm.build, ElemTerm.carried]
      exact a.build_axioms ρ i

theorem buildEntries_axioms (ρ : Assignment V) (j : ValueExpr V I) :
    ∀ entries : List (ValueExpr V I × ElemTerm V I E),
      (∀ c ∈ (buildEntries (inlinedFuncArray V I E) entries).map
        (fun c => (ValueExpr.equal j c.1, c.2)), c.1.axioms ρ ∧ c.2.axioms ρ) ↔
          carriedByEntries entries j.axioms ρ
  | [] => by
      rw [buildEntries, carriedByEntries, iff_true]
      exact fun c hc => absurd hc List.not_mem_nil
  | (i, e) :: entries => by
      rw [buildEntries, carriedByEntries, List.map_cons, List.forall_mem_cons,
        buildEntries_axioms ρ j entries, ← e.build_axioms ρ]
      exact Iff.rfl

theorem buildArrays_axioms (ρ : Assignment V) (j : ValueExpr V I) :
    ∀ arrays : List (ValueExpr V Bool × ArrayTerm V I E),
      (∀ c ∈ (buildArrays (inlinedFuncArray V I E) arrays).map (fun c => (c.1, c.2 j)),
        c.1.axioms ρ ∧ c.2.axioms ρ) ↔ carriedByArrays arrays j.axioms ρ
  | [] => by
      rw [buildArrays, carriedByArrays, iff_true]
      exact fun c hc => absurd hc List.not_mem_nil
  | (cond, a) :: arrays => by
      rw [buildArrays, carriedByArrays, List.map_cons, List.forall_mem_cons,
        buildArrays_axioms ρ j arrays, ← a.build_axioms ρ j]
end

/-! ## Agreement -/

/-- The two back ends agree on a read of an array: the values are equal and the axioms equivalent, in
every assignment. -/
def ArrayTerm.BackEndsAgree (a : ArrayTerm V I E) (i : ValueExpr V I) : Prop :=
  let theory := (theoryArray V I E).select (a.build _) i
  let inlined := (inlinedFuncArray V I E).select (a.build _) i
  ∀ ρ, theory.expr ρ = inlined.expr ρ ∧ (theory.axioms ρ ↔ inlined.axioms ρ)

/-- The value of a store with an axiom that does not hold is read with the axiom from a closure, and
without it from a term. -/
theorem backEnds_disagree :
    ¬ (ArrayTerm.store (V := Unit) (I := Bool) (.mkDefault (.given ⟨fun _ => 0, fun _ => True⟩))
      ⟨fun _ => true, fun _ => True⟩ (.given ⟨fun _ => 1, fun _ => False⟩)).BackEndsAgree
        ⟨fun _ => true, fun _ => True⟩ := by
  intro hagree
  have haxioms := (hagree ⟨fun _ => (), fun _ _ => 0⟩).2.mp trivial
  exact haxioms.2.1

/-- The back ends always read the same values; the axioms agree when, and only when, all those that
the operations were given hold in every assignment. -/
theorem backEndsAgree_iff (a : ArrayTerm V I E) (i : ValueExpr V I) :
    a.BackEndsAgree i ↔ ∀ ρ, a.carried i.axioms ρ := by
  unfold ArrayTerm.BackEndsAgree
  refine forall_congr' fun ρ => ?_
  have hvalue : ((theoryArray V I E).select (a.build _) i).expr ρ =
      ((inlinedFuncArray V I E).select (a.build _) i).expr ρ := a.build_expr ρ i
  have htheory := theoryArray_select_axioms (a.build (theoryArray V I E)) i ρ
  have hinlined : ((inlinedFuncArray V I E).select (a.build _) i).axioms ρ ↔
      a.carried i.axioms ρ := a.build_axioms ρ i
  rw [and_iff_right hvalue, iff_true_left htheory, hinlined]

end SMT

end Borealis
