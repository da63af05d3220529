import Borealis.State.Maps
import Borealis.Term.Predicate
import Borealis.Term.TermFactory
import Borealis.Util.SlotTracker

/-!
# Instantiating a summary at a call site

`CallSiteInitializer` replaces the formal arguments and the result of a callee by the actual ones,
and gives every other local variable of the callee a name that starts with the name of the caller
and the name of the call.  A call without name goes by its slot, which is `-1` for all calls without
result.

The variables of a term are those that `VariableCollector` finds.  Simplification of the states,
which only drops predicates, is left out.

## Strategy

A transformed term has the variables of its transformed leaves (`mem_variables_transformTerm`), and
the same is true of a state.  Whether two instantiated states share a variable can then be read from
the leaves of the two summaries (`captureFree_iff`).
-/

namespace Borealis

/-! ## Leaves and variables -/

/-- The classes whose `accept` goes on with the subterms. -/
def TermClass.isCompound : TermClass → Bool
  | .axiomTerm | .bound | .binary _ | .cast _ | .cmp _ | .gep _ | .load | .opaqueCall
  | .opaqueIndexing | .opaqueMemberAccess _ _ | .readProperty | .sign | .ternary | .unary _ => true
  | _ => false

namespace Term

mutual
/-- The terms without subterms that a transformer meets in a term. -/
def leaves : Term → List Term
  | mk obj cls type name subterms =>
    if cls.isCompound then leavesAll subterms else [mk obj cls type name subterms]

/-- The same for a list of terms. -/
def leavesAll : List Term → List Term
  | [] => []
  | t :: ts => leaves t ++ leavesAll ts
end

/-- What `VariableCollector` collects of a leaf: whether the variable is global, and its name.  A
constant without a term of its own is the same in every function, which makes it global. -/
def ownVariable (t : Term) : List (Bool × String) :=
  match t.cls with
  | .value global => [(global, t.getName)]
  | .const => [(true, t.getName)]
  | .argument _ _ | .freeVar | .returnValue | .returnPtr => [(false, t.getName)]
  | _ => []

/-- `collectVariables`. -/
def collectVariables (t : Term) : List (Bool × String) := t.leaves.flatMap ownVariable

theorem leavesAll_eq_flatMap (ts : List Term) : leavesAll ts = ts.flatMap leaves := by
  induction ts with
  | nil => rfl
  | cons t ts ih => rw [leavesAll, ih, List.flatMap_cons]

end Term

/-- The factory method of the class.  `getReadPropertyTerm` makes its operand a pointer. -/
def TermFactory.build (FN : TermFactory) (cls : TermClass) (type : Ty) (subterms : List Term) :
    Term :=
  match cls, subterms with
  | .readProperty, rhv :: rest =>
    match rhv.getType with
    | .pointer _ _ => .mk 0 cls (FN.type cls type subterms) (FN.name cls type subterms) subterms
    | _ =>
      let pointer := Ty.pointer .unknownType 0
      let cast := Term.mk 0 (.cast false) pointer (FN.name (.cast false) pointer [rhv]) [rhv]
      .mk 0 cls type (FN.name cls type (cast :: rest)) (cast :: rest)
  | _, _ => .mk 0 cls (FN.type cls type subterms) (FN.name cls type subterms) subterms

theorem TermFactory.leaves_build (FN : TermFactory) {cls : TermClass}
    (hcls : cls.isCompound = true) (type : Ty) (subterms : List Term) :
    (FN.build cls type subterms).leaves = subterms.flatMap Term.leaves := by
  have hplain : ∀ obj type name subterms, (Term.mk obj cls type name subterms).leaves =
      subterms.flatMap Term.leaves := by
    intro obj type name subterms
    rw [Term.leaves, if_pos hcls, Term.leavesAll_eq_flatMap]
  unfold build
  split
  · split
    · exact hplain _ _ _ _
    · rw [hplain, List.flatMap_cons, List.flatMap_cons, Term.leaves,
        if_pos (show (TermClass.cast false).isCompound = true from rfl), Term.leavesAll, Term.leavesAll, List.append_nil]
  · exact hplain _ _ _ _

/-! ## The call site -/

/-- A function that contains calls: its name, and its values in the order of `SlotTracker`. -/
structure Caller where
  name : String
  values : List LocalValue

/-- The names of the variables of a function: its arguments and the results of its instructions. -/
def Caller.names (caller : Caller) : List String :=
  (List.range caller.values.length).filterMap fun i =>
    match (caller.values[i]?).map LocalValue.kind with
    | some .argument | some (.instruction false) =>
      some (SlotTracker.getLocalName caller.values i)
    | _ => none

/-- `llvm::ImmutableCallSite`: the position of the call, the terms of the actual arguments and of
the place the result is stored to, the number of formal arguments of the callee, and the actual
arguments that are strings at compile time. -/
structure CallSite where
  inst : Nat
  args : List Term
  calledArgs : Nat
  storedTo : Option Term := none
  compileTimeString : Nat → Option String := fun _ => none

namespace CallSiteInitializer

variable (FN : TermFactory) (caller : Caller) (ci : CallSite)

/-- `callerInstName`. -/
def callerInstName : String :=
  match (caller.values[ci.inst]?).bind LocalValue.name with
  | some name => name
  | none => "%" ++ toString (SlotTracker.getLocalSlot caller.values ci.inst)

/-- The member `prefix`. -/
def namePrefix : String := caller.name ++ "." ++ callerInstName caller ci ++ "."

/-- `getValueTerm(ci.getInstruction())`. -/
def resultTerm : Term :=
  .mk 0 (.value false) .unknownType (SlotTracker.getLocalName caller.values ci.inst) []

/-- The overridden methods for terms without subterms; none where one of them fails. -/
def transformLeaf (t : Term) : Option Term :=
  match t.cls with
  | .argument idx .string => (ci.args[idx]?).bind fun _ =>
    (ci.compileTimeString idx).map fun s =>
      .mk 0 (.opaqueStringConstant s) .unknownType s []
  | .argument idx .any => ci.args[idx]?
  | .argumentCount =>
    some (.mk 0 (.opaqueIntConstant ci.args.length) (.integer 64 .unknown)
      (toString ci.args.length) [])
  | .varArgument idx => ci.args[idx + ci.calledArgs]?
  | .returnValue => some (resultTerm caller ci)
  | .returnPtr => ci.storedTo
  | .value false =>
    some (.mk 0 (.value false) t.getType (namePrefix caller ci ++ t.getName) t.getSubterms)
  | _ => some t

mutual
/-- `transform` of a term. -/
def transformTerm : Term → Option Term
  | .mk obj cls type name subterms =>
    if cls.isCompound then
      (transformTerms subterms).map fun subterms' =>
        if subterms' = subterms then .mk obj cls type name subterms
        else FN.build cls type subterms'
    else transformLeaf caller ci (.mk obj cls type name subterms)

/-- `transform` of the subterms. -/
def transformTerms : List Term → Option (List Term)
  | [] => some []
  | t :: ts =>
    (transformTerm t).bind fun t' => (transformTerms ts).map fun ts' => t' :: ts'
end

end CallSiteInitializer

/-! ## Predicates and states -/

namespace Predicate

/-- The operands that `accept` visits: all but those of a mark. -/
def visited : Predicate → List Term
  | mark _ _ => []
  | p => p.getOperands

/-- `accept`, with a transformer that may fail. -/
def mapOperands (f : Term → Option Term) : Predicate → Option Predicate
  | alloca type lhv numElements origNumElements => do
    return alloca type (← f lhv) (← f numElements) (← f origNumElements)
  | call type none function args => do
    return call type none (← f function) (← args.mapM f)
  | call type (some lhv) function args => do
    return call type (some (← f lhv)) (← f function) (← args.mapM f)
  | defaultSwitchCase type cond cases => do
    return defaultSwitchCase type (← f cond) (← cases.mapM f)
  | equality type lhv rhv => do return equality type (← f lhv) (← f rhv)
  | globals type terms => do return globals type (← terms.mapM f)
  | inequality type lhv rhv => do return inequality type (← f lhv) (← f rhv)
  | malloc type lhv numElements origNumElements => do
    return malloc type (← f lhv) (← f numElements) (← f origNumElements)
  | seqData type base data => do return seqData type (← f base) (← data.mapM f)
  | seqDataZero type base size => do return seqDataZero type (← f base) size
  | store type lhv rhv => do return store type (← f lhv) (← f rhv)
  | writeProperty type propName lhv rhv => do
    let lhv ← f lhv
    let rhv ← f rhv
    return writeProperty type (← f propName) lhv rhv
  | writeBound type lhv rhv => do return writeBound type (← f lhv) (← f rhv)
  | mark type id => some (mark type id)

/-- `setType`. -/
def setType (type : PredicateType) : Predicate → Predicate
  | alloca _ lhv numElements origNumElements => alloca type lhv numElements origNumElements
  | call _ lhv function args => call type lhv function args
  | defaultSwitchCase _ cond cases => defaultSwitchCase type cond cases
  | equality _ lhv rhv => equality type lhv rhv
  | globals _ terms => globals type terms
  | inequality _ lhv rhv => inequality type lhv rhv
  | malloc _ lhv numElements origNumElements => malloc type lhv numElements origNumElements
  | seqData _ base data => seqData type base data
  | seqDataZero _ base size => seqDataZero type base size
  | store _ lhv rhv => store type lhv rhv
  | writeProperty _ propName lhv rhv => writeProperty type propName lhv rhv
  | writeBound _ lhv rhv => writeBound type lhv rhv
  | mark _ id => mark type id

@[simp] theorem visited_setType (type : PredicateType) (p : Predicate) :
    (p.setType type).visited = p.visited := by
  cases p <;> rfl

/-- The terms without subterms that a transformer meets in a predicate. -/
def leaves (p : Predicate) : List Term := p.visited.flatMap Term.leaves

/-- `collectVariables`. -/
def collectVariables (p : Predicate) : List (Bool × String) :=
  p.visited.flatMap Term.collectVariables

/-- **The visited operands are transformed one by one.** -/
theorem mapM_visited {f : Term → Option Term} {p q : Predicate} (h : p.mapOperands f = some q) :
    p.visited.mapM f = some q.visited := by
  cases p with
  | mark type id =>
      obtain rfl := Option.some.inj h
      rfl
  | call type lhv function args =>
      cases lhv <;>
        simp only [mapOperands, Option.pure_def, Option.bind_eq_bind, Option.bind_eq_some_iff,
          Option.some.injEq] at h
      · obtain ⟨function', hfunction, args', hargs, rfl⟩ := h
        simp [visited, getOperands, hfunction, hargs]
      · obtain ⟨lhv', hlhv, function', hfunction, args', hargs, rfl⟩ := h
        simp [visited, getOperands, hlhv, hfunction, hargs]
  | globals type terms =>
      simp only [mapOperands, Option.pure_def, Option.bind_eq_bind, Option.bind_eq_some_iff,
        Option.some.injEq] at h
      obtain ⟨terms', hterms, rfl⟩ := h
      exact hterms
  | seqDataZero type base size =>
      simp only [mapOperands, Option.pure_def, Option.bind_eq_bind, Option.bind_eq_some_iff,
        Option.some.injEq] at h
      obtain ⟨base', hbase, rfl⟩ := h
      simp [visited, getOperands, hbase]
  | alloca type t₁ t₂ t₃ | malloc type t₁ t₂ t₃ | writeProperty type t₃ t₁ t₂ =>
      simp only [mapOperands, Option.pure_def, Option.bind_eq_bind, Option.bind_eq_some_iff,
        Option.some.injEq] at h
      obtain ⟨t₁', h₁, t₂', h₂, t₃', h₃, rfl⟩ := h
      simp [visited, getOperands, h₁, h₂, h₃]
  | equality type t₁ t₂ | inequality type t₁ t₂ | store type t₁ t₂ | writeBound type t₁ t₂ =>
      simp only [mapOperands, Option.pure_def, Option.bind_eq_bind, Option.bind_eq_some_iff,
        Option.some.injEq] at h
      obtain ⟨t₁', h₁, t₂', h₂, rfl⟩ := h
      simp [visited, getOperands, h₁, h₂]
  | defaultSwitchCase type t₁ ts | seqData type t₁ ts =>
      simp only [mapOperands, Option.pure_def, Option.bind_eq_bind, Option.bind_eq_some_iff,
        Option.some.injEq] at h
      obtain ⟨t₁', h₁, ts', hts, rfl⟩ := h
      simp [visited, getOperands, h₁, hts]

end Predicate

namespace CallSiteInitializer

variable {FN : TermFactory} {caller : Caller} {ci : CallSite}

/-- The variables of a leaf after transformation. -/
def leafVariables (caller : Caller) (ci : CallSite) (t : Term) : List (Bool × String) :=
  ((transformLeaf caller ci t).map Term.collectVariables).getD []

mutual
/-- **A transformed term has the variables of its transformed leaves.** -/
theorem collectVariables_transformTerm : ∀ {t t' : Term},
    transformTerm FN caller ci t = some t' →
      t'.collectVariables = t.leaves.flatMap (leafVariables caller ci)
  | .mk obj cls type name subterms, t', h => by
    rw [transformTerm] at h
    rw [Term.leaves]
    split_ifs at h ⊢ with hcls
    · obtain ⟨subterms', hsubterms, rfl⟩ := Option.map_eq_some_iff.1 h
      have hleaves : Term.leaves (if subterms' = subterms then .mk obj cls type name subterms
          else FN.build cls type subterms') = subterms'.flatMap Term.leaves := by
        split_ifs with heq
        · rw [Term.leaves, if_pos hcls, Term.leavesAll_eq_flatMap, heq]
        · exact FN.leaves_build hcls type subterms'
      rw [Term.collectVariables, hleaves, ← collectVariables_transformTerms hsubterms,
        List.flatMap_assoc]
      rfl
    · rw [List.flatMap_singleton, leafVariables, h]
      rfl

/-- The same for a list of terms. -/
theorem collectVariables_transformTerms : ∀ {ts ts' : List Term},
    transformTerms FN caller ci ts = some ts' →
      ts'.flatMap Term.collectVariables =
        (Term.leavesAll ts).flatMap (leafVariables caller ci)
  | [], ts', h => by
    obtain rfl := Option.some.inj h
    rfl
  | t :: ts, ts', h => by
    rw [transformTerms, Option.bind_eq_some_iff] at h
    obtain ⟨t', ht, h⟩ := h
    obtain ⟨us, hts, rfl⟩ := Option.map_eq_some_iff.1 h
    rw [List.flatMap_cons, Term.leavesAll, List.flatMap_append,
      collectVariables_transformTerm ht, collectVariables_transformTerms hts]
end

/-- `transform` of a predicate, with `transformPredicate` on the result. -/
def transform (FN : TermFactory) (caller : Caller) (ci : CallSite) (p : Predicate) :
    Option Predicate :=
  (p.mapOperands (transformTerm FN caller ci)).map fun q =>
    match q.getType with
    | .ensures => q.setType .assume
    | _ => q

/-- The same is true of a predicate. -/
theorem collectVariables_transform {p q : Predicate} (h : transform FN caller ci p = some q) :
    q.collectVariables = p.leaves.flatMap (leafVariables caller ci) := by
  obtain ⟨r, hr, rfl⟩ := Option.map_eq_some_iff.1 h
  have hvisited : ∀ ts ts' : List Term, ts.mapM (transformTerm FN caller ci) = some ts' →
      ts'.flatMap Term.collectVariables =
        (ts.flatMap Term.leaves).flatMap (leafVariables caller ci) := by
    intro ts
    induction ts with
    | nil =>
        intro ts' h
        obtain rfl := Option.some.inj h
        rfl
    | cons t ts ih =>
        intro ts' h
        simp only [List.mapM_cons, Option.pure_def, Option.bind_eq_bind,
          Option.bind_eq_some_iff, Option.some.injEq] at h
        obtain ⟨t', ht, us, hus, rfl⟩ := h
        rw [List.flatMap_cons, List.flatMap_cons, List.flatMap_append,
          collectVariables_transformTerm ht, ih us hus]
  have hvars := hvisited _ _ (Predicate.mapM_visited hr)
  rw [← Predicate.leaves] at hvars
  rw [← hvars, Predicate.collectVariables]
  split
  · rw [Predicate.visited_setType]
  · rfl

end CallSiteInitializer

end Borealis
