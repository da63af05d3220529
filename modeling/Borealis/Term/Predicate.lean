import Borealis.Term.Term

/-!
# Predicates

`Predicate/Predicate.def`.  A predicate is an atomic fact about terms; its `PredicateType` says
where it comes from.  The source location of a predicate takes part in no comparison and is left
out.
-/

namespace Borealis

/-- `PredicateType`. -/
inductive PredicateType where
  | path | state | requires | ensures | assert | assume | invariant
deriving DecidableEq, Repr

/-- `Predicate::Ptr`. -/
inductive Predicate where
  | alloca (type : PredicateType) (lhv numElements origNumElements : Term)
  | call (type : PredicateType) (lhv : Option Term) (function : Term) (args : List Term)
  | defaultSwitchCase (type : PredicateType) (cond : Term) (cases : List Term)
  | equality (type : PredicateType) (lhv rhv : Term)
  | globals (type : PredicateType) (terms : List Term)
  | inequality (type : PredicateType) (lhv rhv : Term)
  | malloc (type : PredicateType) (lhv numElements origNumElements : Term)
  | seqData (type : PredicateType) (base : Term) (data : List Term)
  | seqDataZero (type : PredicateType) (base : Term) (size : Nat)
  | store (type : PredicateType) (lhv rhv : Term)
  | writeProperty (type : PredicateType) (propName lhv rhv : Term)
  | writeBound (type : PredicateType) (lhv rhv : Term)
  | mark (type : PredicateType) (id : Term)
deriving DecidableEq

namespace Predicate

/-- `Predicate::getType`. -/
def getType : Predicate → PredicateType
  | alloca type _ _ _ | call type _ _ _ | defaultSwitchCase type _ _ | equality type _ _
  | globals type _ | inequality type _ _ | malloc type _ _ _ | seqData type _ _
  | seqDataZero type _ _ | store type _ _ | writeProperty type _ _ _ | writeBound type _ _
  | mark type _ => type

/-- `Predicate::getOperands`, in the order the constructors fill `ops`. -/
def getOperands : Predicate → List Term
  | alloca _ lhv numElements origNumElements => [lhv, numElements, origNumElements]
  | call _ lhv function args => lhv.toList ++ function :: args
  | defaultSwitchCase _ cond cases => cond :: cases
  | equality _ lhv rhv => [lhv, rhv]
  | globals _ terms => terms
  | inequality _ lhv rhv => [lhv, rhv]
  | malloc _ lhv numElements origNumElements => [lhv, numElements, origNumElements]
  | seqData _ base data => base :: data
  | seqDataZero _ base _ => [base]
  | store _ lhv rhv => [lhv, rhv]
  | writeProperty _ propName lhv rhv => [lhv, rhv, propName]
  | writeBound _ lhv rhv => [lhv, rhv]
  | mark _ id => [id]

/-- `Predicate::equals`: class, type and operands. -/
def equals (p q : Predicate) : Bool :=
  p.ctorIdx == q.ctorIdx && p.getType == q.getType && Term.equalsAll p.getOperands q.getOperands

/-- `PredicateUtils::getReceiver`: the term a state predicate writes. -/
def getReceiver (p : Predicate) : Option Term :=
  if p.getType != .state && p.getType != .invariant then none
  else
    match p with
    | alloca _ lhv _ _ | malloc _ lhv _ _ | equality _ lhv _ | seqData _ lhv _
    | seqDataZero _ lhv _ | store _ lhv _ | writeBound _ lhv _ | writeProperty _ _ lhv _ =>
      some lhv
    | globals _ [term] => some term
    | _ => none

/-- `$EqualityPredicate(_1, $OpaqueBoolConstantTerm(_2))`: the term and the truth value of a
predicate that compares a term with a boolean constant. -/
def asBoolEquality : Predicate → Option (Term × Bool)
  | equality _ lhv rhv =>
    match rhv.cls with
    | .opaqueBoolConstant value => some (lhv, value)
    | _ => none
  | _ => none

/-- `x = true` and `x = false`, in either order. -/
def Complementary (p q : Predicate) : Prop :=
  ∃ x y b, p.asBoolEquality = some (x, b) ∧ q.asBoolEquality = some (y, !b) ∧ x.equals y = true

/-- `inverse` of the slicer: the predicate that says the opposite of a boolean equality. -/
def inverse (p : Predicate) : Option Predicate :=
  match p.asBoolEquality with
  | some (x, true) =>
    some (equality p.getType x (.mk 0 (.opaqueBoolConstant false) .bool "false" []))
  | some (x, false) =>
    some (equality p.getType x (.mk 0 (.opaqueBoolConstant true) .bool "true" []))
  | none => none

end Predicate

end Borealis
