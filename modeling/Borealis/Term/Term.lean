import Borealis.Term.Types

/-!
# Terms

`Term/Term.h`.  Every term class stores the fields of the base class (class tag, type, name,
subterms) and a few of its own; `TermClass` is the class tag together with the latter.  The name
is the one the constructor composes, so two terms built alike have equal names.

`Term.equals` is `Term::equals` with its overrides: it compares class, name and subterms, the
opcode or index of the classes that override it, and neither the type nor the identity of the
object.  `obj` is that identity (`Ptr::get()`), which the alias analysis compares for constants.
-/

namespace Borealis

/-- `llvm::ArithType`. -/
inductive ArithType where
  | add | sub | mul | div | rem | land | lor | band | bor | xor | shl | ashr | lshr | implies
deriving DecidableEq, Repr

/-- `llvm::UnaryArithType`. -/
inductive UnaryArithType where
  | neg | not | bnot
deriving DecidableEq, Repr

/-- `llvm::ConditionType`. -/
inductive ConditionType where
  | eq | neq | gt | ge | lt | le | ugt | uge | ult | ule | true | false | unknown
deriving DecidableEq, Repr

/-- `ArgumentKind`. -/
inductive ArgumentKind where
  | any | string
deriving DecidableEq, Repr

/-- The class tag of a term, with the fields its class adds to `Term`. -/
inductive TermClass where
  | argument (idx : Nat) (kind : ArgumentKind)
  | argumentCount
  | axiomTerm
  | bound
  | binary (opcode : ArithType)
  | cast (signExtend : Bool)
  | cmp (opcode : ConditionType)
  | const
  | gep (isTriviallyInbounds : Bool)
  | load
  | opaqueBoolConstant (value : Bool)
  | opaqueBuiltin
  | opaqueNamedConstant
  | opaqueCall
  | opaqueFloatingConstant
  | opaqueIndexing
  | opaqueInvalidPtr
  | opaqueIntConstant (value : Int)
  | opaqueBigIntConstant (representation : String)
  | opaqueNullPtr
  | opaqueStringConstant (value : String)
  | opaqueUndef
  | opaqueVar
  | opaqueMemberAccess (property : String) (indirect : Bool)
  | readProperty
  | returnValue
  | returnPtr
  | sign
  | ternary
  | unary (opcode : UnaryArithType)
  | value (global : Bool)
  | freeVar
  | varArgument (idx : Nat)
deriving DecidableEq, Repr

/-- `Term::Ptr`: a term object with identity `obj`. -/
inductive Term where
  | mk (obj : Nat) (cls : TermClass) (type : Ty) (name : String) (subterms : List Term)

/-- The part of a class that `equals` compares: the class tag, and the fields of the classes
that override `equals`.  The other fields are reset. -/
def TermClass.compared : TermClass → TermClass
  | .cast _ => .cast false
  | .gep _ => .gep false
  | .opaqueBoolConstant _ => .opaqueBoolConstant false
  | .opaqueIntConstant _ => .opaqueIntConstant 0
  | .opaqueBigIntConstant _ => .opaqueBigIntConstant ""
  | .opaqueStringConstant _ => .opaqueStringConstant ""
  | .value _ => .value false
  | cls => cls

namespace Term

mutual
/-- Equality of term objects can be decided. -/
def decEq : (t u : Term) → Decidable (t = u)
  | mk obj cls type name subterms, mk obj' cls' type' name' subterms' =>
    have : Decidable (subterms = subterms') := decEqAll subterms subterms'
    decidable_of_iff
      (obj = obj' ∧ cls = cls' ∧ type = type' ∧ name = name' ∧ subterms = subterms') (by simp)

/-- The same for lists of terms. -/
def decEqAll : (ts us : List Term) → Decidable (ts = us)
  | [], [] => isTrue rfl
  | [], _ :: _ => isFalse (by simp)
  | _ :: _, [] => isFalse (by simp)
  | t :: ts, u :: us =>
    have : Decidable (t = u) := decEq t u
    have : Decidable (ts = us) := decEqAll ts us
    decidable_of_iff (t = u ∧ ts = us) (by simp)
end

instance : DecidableEq Term := decEq

/-- `Ptr::get()`. -/
def obj : Term → Nat
  | mk obj _ _ _ _ => obj

/-- The class tag and the fields of the class. -/
def cls : Term → TermClass
  | mk _ cls _ _ _ => cls

/-- `Term::getType`. -/
def getType : Term → Ty
  | mk _ _ type _ _ => type

/-- `Term::getName`. -/
def getName : Term → String
  | mk _ _ _ name _ => name

/-- `Term::getSubterms`. -/
def getSubterms : Term → List Term
  | mk _ _ _ _ subterms => subterms

mutual
/-- `Term::equals`, with the overrides of the subclasses.  The printed name of a floating
constant stands for its value. -/
def equals : Term → Term → Bool
  | mk _ cls _ name subterms, mk _ cls' _ name' subterms' =>
    decide (cls.compared = cls'.compared) && decide (name = name') && equalsAll subterms subterms'

/-- `util::equal` with `ops::deref_equals_to`. -/
def equalsAll : List Term → List Term → Bool
  | [], [] => true
  | t :: ts, u :: us => equals t u && equalsAll ts us
  | _, _ => false
end

/-- `TermUtils::isNamedTerm`. -/
def isNamedTerm (t : Term) : Bool :=
  match t.cls with
  | .value _ | .argument _ _ | .varArgument _ | .const | .freeVar | .opaqueVar | .returnValue
  | .returnPtr => true
  | _ => false

/-- `TermUtils::isConstantTerm`. -/
def isConstantTerm (t : Term) : Bool :=
  match t.cls with
  | .opaqueIntConstant _ | .opaqueBigIntConstant _ | .opaqueBoolConstant _
  | .opaqueFloatingConstant | .opaqueNullPtr | .opaqueInvalidPtr | .opaqueUndef
  | .opaqueStringConstant _ => true
  | _ => false

mutual
/-- The terms `TermCollector` meets on its way: the subterms, then the term itself. -/
def collected : Term → List Term
  | mk obj cls type name subterms => collectedAll subterms ++ [mk obj cls type name subterms]

/-- The same for a list of terms. -/
def collectedAll : List Term → List Term
  | [] => []
  | t :: ts => collected t ++ collectedAll ts
end

theorem collected_self (t : Term) : t ∈ t.collected := by
  obtain ⟨obj, cls, type, name, subterms⟩ := t
  exact List.mem_append_right _ (List.mem_singleton.2 rfl)

mutual
/-- What is met in a term that is met is met. -/
theorem collected_subset {u : Term} : (t : Term) → u ∈ t.collected → u.collected ⊆ t.collected
  | mk obj cls type name subterms, hu => by
    rcases List.mem_append.1 hu with hu | hu
    · exact List.subset_append_of_subset_left _ (collectedAll_subset subterms hu)
    · rw [List.mem_singleton.1 hu]
      exact List.Subset.refl _

/-- The same for a list of terms. -/
theorem collectedAll_subset {u : Term} :
    (ts : List Term) → u ∈ collectedAll ts → u.collected ⊆ collectedAll ts
  | [], hu => absurd hu List.not_mem_nil
  | t :: ts, hu => by
    rcases List.mem_append.1 hu with hu | hu
    · exact List.subset_append_of_subset_left _ (collected_subset t hu)
    · exact List.subset_append_of_subset_right _ (collectedAll_subset ts hu)
end

/-! ## Sets of terms -/

/-- `count` of a `Term::Set`, whose elements are compared with `equals`. -/
def contains (terms : List Term) (t : Term) : Bool :=
  terms.any fun u => u.equals t

/-- `insert` of a `Term::Set`: an equal term that is already there stays. -/
def insert (terms : List Term) (t : Term) : List Term :=
  if contains terms t then terms else terms ++ [t]

/-- `TermUtils::getFullTermSet`. -/
def getFullTermSet (t : Term) : List Term :=
  t.collected.foldl insert []

/-! ## `equals` is an equivalence -/

mutual
/-- What `equals` sees of a term: the identity, the type and the fields it does not compare are
reset, in the subterms too. -/
def erase : Term → Term
  | mk _ cls _ name subterms => mk 0 cls.compared .unknownType name (eraseAll subterms)

/-- The same for a list of subterms. -/
def eraseAll : List Term → List Term
  | [] => []
  | t :: ts => erase t :: eraseAll ts
end

mutual
theorem equals_iff_erase : (t u : Term) → (t.equals u = true ↔ t.erase = u.erase)
  | mk _ cls _ name subterms, mk _ cls' _ name' subterms' => by
    have ih := equalsAll_iff_eraseAll subterms subterms'
    simp only [equals, erase, Bool.and_eq_true, decide_eq_true_eq, ih, mk.injEq, true_and]
    tauto

theorem equalsAll_iff_eraseAll :
    (ts us : List Term) → (equalsAll ts us = true ↔ eraseAll ts = eraseAll us)
  | [], [] => by simp [equalsAll, eraseAll]
  | [], _ :: _ => by simp [equalsAll, eraseAll]
  | _ :: _, [] => by simp [equalsAll, eraseAll]
  | t :: ts, u :: us => by
    have hhead := equals_iff_erase t u
    have htail := equalsAll_iff_eraseAll ts us
    simp only [equalsAll, eraseAll, Bool.and_eq_true, hhead, htail, List.cons.injEq]
end

@[simp] theorem equals_refl (t : Term) : t.equals t = true :=
  (equals_iff_erase t t).mpr rfl

theorem equals_symm {t u : Term} (h : t.equals u = true) : u.equals t = true :=
  (equals_iff_erase u t).mpr ((equals_iff_erase t u).mp h).symm

end Term

end Borealis
