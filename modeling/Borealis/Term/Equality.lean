import Borealis.Term.MachineValue
import Mathlib

/-!
# Equality of terms

`operator==` and `hashCode` of terms, with all overrides.  Neither of them looks at the type of a
term.  The name of a term tells some types apart, as casts print their target, but not those of
variables and of constants.

A floating constant also compares its value, with a tolerance, and the hash code takes the value as
it is.

## Strategy

`Alike` lists what has to agree besides what is compared: the widths of variables and constants, the
signedness of divisions, the target of a cast, the values of floating constants, and the types of
whatever is not computed here.  One induction over two terms for each law.
-/

namespace Borealis

/-- `double`. -/
inductive Double where
  | finite (q : ℚ)
  | infinity (negative : Bool)
  | nan
deriving DecidableEq

/-- `std::abs(this - other) < EPS`.  The difference is rounded to a double, so that it is below `EPS`,
which is `2 ^ (-50)`, if it is exactly below the middle between `EPS` and the double before it. -/
def Double.near : Double → Double → Bool
  | finite x, finite y => decide (|x - y| < 1 / 2 ^ 50 - 1 / 2 ^ 104)
  | _, _ => false

theorem Double.near_comm (x y : Double) : x.near y = y.near x := by
  cases x <;> cases y <;> simp [near, abs_sub_comm]

/-- The class of floating constants. -/
def TermClass.isFloating : TermClass → Bool
  | .opaqueFloatingConstant => true
  | _ => false

/-- The value of a floating constant; other terms have none. -/
def TermClass.double (value : ℕ → Double) (obj : ℕ) (cls : TermClass) : Option Double :=
  if cls.isFloating then some (value obj) else none

namespace Term

/-! ## Equality -/

section Equality

-- the values of the floating constants, by the identity of the term
variable (value : ℕ → Double)

mutual
/-- `operator==`: the same object, or `equals`. -/
def isEqual : Term → Term → Bool
  | mk obj cls type name subterms, mk obj' cls' type' name' subterms' =>
    decide (mk obj cls type name subterms = mk obj' cls' type' name' subterms') ||
      (decide (cls.compared = cls'.compared) && decide (name = name') &&
        areEqual subterms subterms' && (!cls.isFloating || (value obj).near (value obj')))

/-- `util::equal` with `ops::deref_equals_to`. -/
def areEqual : List Term → List Term → Bool
  | [], [] => true
  | t :: ts, u :: us => isEqual t u && areEqual ts us
  | _, _ => false
end

/-! ## Hash codes -/

/-- `std::hash` of the members of terms; `fields` are the members that a class adds to the hash code
and compares. -/
structure StdHash where
  classTag : TermClass → UInt64
  name : String → UInt64
  fields : TermClass → List UInt64
  double : Double → UInt64

/-- `get_hash_code<3, 17>`. -/
def hasher : List UInt64 → UInt64
  | [] => 3
  | head :: tail => 17 * hasher tail + head

variable (std : StdHash)

mutual
/-- `hashCode`. -/
def hashCode : Term → UInt64
  | mk obj cls _ name subterms =>
    let base := hasher [std.classTag cls.compared, std.name name, hashCodes 3 subterms]
    if cls.isFloating then hasher [base, std.double (value obj)]
    else if (std.fields cls.compared).isEmpty then base
    else hasher (base :: std.fields cls.compared)

/-- `std::hash<std::vector<Term::Ptr>>`. -/
def hashCodes (res : UInt64) : List Term → UInt64
  | [] => res
  | t :: ts => hashCodes (17 * res + hashCode t) ts
end

end Equality

/-! ## Values -/

/-- The values of the nodes that are not computed here: memory, pointers, floats and calls. -/
structure OtherValues where
  node : TermClass → Option Double → Ty → String → List (Option Meaning) → Option Meaning

end Term

/-- The type has values that the machine computes with. -/
def Ty.sort : Ty → Option (Option ℕ)
  | .integer w _ => some (some w)
  | .bool => some none
  | _ => none

/-- A node over integers and booleans. -/
def TermClass.isMachine (type : Ty) : TermClass → Bool
  | .value _ | .argument _ _ | .opaqueIntConstant _ | .opaqueBigIntConstant _ | .cast _ =>
    type.sort.isSome
  | .opaqueBoolConstant _ | .binary _ | .cmp _ | .unary _ | .ternary => true
  | _ => false

namespace Term

mutual
/-- The value of a term: that of the machine for a node over integers and booleans. -/
def valueOf (value : ℕ → Double) (σ : MachineValuation) (other : OtherValues) :
    Term → Option Meaning
  | mk obj cls type name subterms =>
    if cls.isMachine type then cls.machine σ type name (valuesOf value σ other subterms)
    else other.node cls (cls.double value obj) type name (valuesOf value σ other subterms)

/-- The values of the subterms. -/
def valuesOf (value : ℕ → Double) (σ : MachineValuation) (other : OtherValues) :
    List Term → List (Option Meaning)
  | [] => []
  | t :: ts => valueOf value σ other t :: valuesOf value σ other ts
end

end Term

/-- What the machine reads of the type of a node. -/
def TermClass.typeRead (type : Ty) : TermClass → Option (Option ℕ) × Bool
  | .binary .div | .binary .rem => (none, type.isUnsigned)
  | .value _ | .argument _ _ | .opaqueIntConstant _ | .opaqueBigIntConstant _ | .cast _ =>
    (type.sort, false)
  | _ => (none, false)

/-- What the machine reads of a class: whether a variable is global is not part of its value. -/
def TermClass.fieldsRead : TermClass → TermClass
  | .value _ => .value false
  | cls => cls

/-! ### What the machine reads -/

/-- Types of one sort: integers of one width, or neither is a type of the machine but boolean. -/
theorem Ty.sort_cases {type type' : Ty} (hsort : type.sort = type'.sort) :
    (∃ w s s', type = .integer w s ∧ type' = .integer w s') ∨ (type = .bool ∧ type' = .bool) ∨
      (type.sort = none ∧ type'.sort = none) := by
  cases type <;> cases type' <;> simp_all [Ty.sort]

theorem Ty.machineVariable_congr {type type' : Ty} (hsort : type.sort = type'.sort)
    (σ : MachineValuation) (name : String) :
    type.machineVariable σ name = type'.machineVariable σ name := by
  rcases Ty.sort_cases hsort with ⟨w, s, s', rfl, rfl⟩ | ⟨rfl, rfl⟩ | ⟨hnone, hnone'⟩
  · rfl
  · rfl
  · cases type <;> cases type' <;> first | rfl | simp [Ty.sort] at hnone hnone'

theorem Ty.machineConstant_congr {type type' : Ty} (hsort : type.sort = type'.sort) (v : ℤ) :
    type.machineConstant v = type'.machineConstant v := by
  rcases Ty.sort_cases hsort with ⟨w, s, s', rfl, rfl⟩ | ⟨rfl, rfl⟩ | ⟨hnone, hnone'⟩
  · rfl
  · rfl
  · cases type <;> cases type' <;> first | rfl | simp [Ty.sort] at hnone hnone'

theorem Meaning.machineCast_congr {type type' : Ty} (hsort : type.sort = type'.sort)
    (signExtend : Bool) (m : Meaning) :
    m.machineCast signExtend type = m.machineCast signExtend type' := by
  rcases Ty.sort_cases hsort with ⟨w, s, s', rfl, rfl⟩ | ⟨rfl, rfl⟩ | ⟨hnone, hnone'⟩
  · cases m <;> rfl
  · rfl
  · cases type <;> cases type' <;> first | rfl | simp [Ty.sort] at hnone hnone'

theorem ArithType.machineOp_congr {op : ArithType} {type type' : Ty}
    (hread : (TermClass.binary op).typeRead type = (TermClass.binary op).typeRead type') :
    op.machineOp type = op.machineOp type' := by
  cases op <;> first | rfl | simp_all [TermClass.typeRead, ArithType.machineOp]

theorem Meaning.machineBinary_congr {op : ArithType} {type type' : Ty}
    (hop : op.machineOp type = op.machineOp type') (lhv rhv : Meaning) :
    lhv.machineBinary type op rhv = lhv.machineBinary type' op rhv := by
  cases lhv <;> cases rhv <;> simp only [Meaning.machineBinary, Meaning.machineArith, hop]

/-- **A machine node** reads no more of its type and of its class. -/
theorem TermClass.machine_congr {cls cls' : TermClass} {type type' : Ty}
    (hmachine : cls.isMachine type = true) (hfields : cls.fieldsRead = cls'.fieldsRead)
    (hread : cls.typeRead type = cls'.typeRead type') (σ : MachineValuation) (name : String)
    (operands : List (Option Meaning)) :
    cls.machine σ type name operands = cls'.machine σ type' name operands := by
  have hcls : cls = cls' ∨ ∃ g g', cls = .value g ∧ cls' = .value g' := by
    cases cls <;> cases cls' <;> simp_all [TermClass.fieldsRead]
  rcases hcls with rfl | ⟨g, g', rfl, rfl⟩
  · cases cls with
    | argument _ _ | value _ =>
        have hsort : type.sort = type'.sort := (Prod.mk.inj hread).1
        cases operands with
        | nil => exact Ty.machineVariable_congr hsort σ name
        | cons => rfl
    | opaqueIntConstant _ | opaqueBigIntConstant _ =>
        have hsort : type.sort = type'.sort := (Prod.mk.inj hread).1
        cases operands with
        | nil => exact Ty.machineConstant_congr hsort _
        | cons => rfl
    | binary op =>
        have hop := ArithType.machineOp_congr hread
        rcases operands with - | ⟨- | lhv, - | ⟨- | rhv, - | -⟩⟩ <;>
          first | rfl | exact Meaning.machineBinary_congr hop lhv rhv
    | cast signExtend =>
        have hsort : type.sort = type'.sort := (Prod.mk.inj hread).1
        rcases operands with - | ⟨- | rhv, - | -⟩ <;>
          first | rfl | exact Meaning.machineCast_congr hsort signExtend rhv
    | opaqueBoolConstant | cmp | unary | ternary =>
        -- the type is not read
        rcases operands with - | ⟨- | x, - | ⟨- | y, - | ⟨- | z, - | -⟩⟩⟩ <;> rfl
    | _ => simp [TermClass.isMachine] at hmachine
  · have hsort : type.sort = type'.sort := (Prod.mk.inj hread).1
    cases operands with
    | nil => exact Ty.machineVariable_congr hsort σ name
    | cons => rfl

namespace Term

mutual
/-- Two terms agree in what decides about their values and is not compared. -/
def Alike (value : ℕ → Double) : Term → Term → Prop
  | mk obj cls type _ subterms, mk obj' cls' type' _ subterms' =>
    (if cls.isMachine type then
      cls'.isMachine type' = true ∧ cls.fieldsRead = cls'.fieldsRead ∧
        cls.typeRead type = cls'.typeRead type'
    else cls = cls' ∧ type = type' ∧ cls.double value obj = cls'.double value obj') ∧ AllAlike value subterms subterms'

/-- The same for lists of subterms. -/
def AllAlike (value : ℕ → Double) : List Term → List Term → Prop
  | t :: ts, u :: us => Alike value t u ∧ AllAlike value ts us
  | _, _ => True
end

/-! ## The laws -/

section Laws

variable {value : ℕ → Double}

theorem isEqual_refl (t : Term) : isEqual value t t = true := by
  obtain ⟨obj, cls, type, name, subterms⟩ := t
  simp [isEqual]

/-- Two terms are equal when they are one object, or when all that is compared is. -/
theorem isEqual_iff {obj obj' : ℕ} {cls cls' : TermClass} {type type' : Ty} {name name' : String}
    {subterms subterms' : List Term} :
    isEqual value (mk obj cls type name subterms) (mk obj' cls' type' name' subterms') = true ↔
      mk obj cls type name subterms = mk obj' cls' type' name' subterms' ∨
        cls.compared = cls'.compared ∧ name = name' ∧ areEqual value subterms subterms' = true ∧
          (cls.isFloating = true → (value obj).near (value obj') = true) := by
  simp only [isEqual, Bool.or_eq_true, Bool.and_eq_true, decide_eq_true_eq, Bool.not_eq_true',
    and_assoc]
  cases cls.isFloating <;> simp

theorem isFloating_compared (cls : TermClass) : cls.compared.isFloating = cls.isFloating := by
  cases cls <;> rfl

theorem isFloating_congr {cls cls' : TermClass} (h : cls.compared = cls'.compared) :
    cls.isFloating = cls'.isFloating := by
  rw [← isFloating_compared, h, isFloating_compared]

mutual
theorem isEqual_symm : (t u : Term) → isEqual value t u = true → isEqual value u t = true
  | mk _ cls _ _ subterms, mk _ cls' _ _ subterms' => fun h => by
    rcases isEqual_iff.1 h with heq | ⟨hcls, hname, hsubterms, hnear⟩
    · exact isEqual_iff.2 (Or.inl heq.symm)
    · refine isEqual_iff.2 (Or.inr ⟨hcls.symm, hname.symm,
        areEqual_symm subterms subterms' hsubterms, fun hfloating => ?_⟩)
      rw [Double.near_comm]
      exact hnear ((isFloating_congr hcls).trans hfloating)

theorem areEqual_symm :
    (ts us : List Term) → areEqual value ts us = true → areEqual value us ts = true
  | [], [] => fun _ => rfl
  | [], _ :: _ => fun h => absurd h (by simp [areEqual])
  | _ :: _, [] => fun h => absurd h (by simp [areEqual])
  | t :: ts, u :: us => fun h => by
    rw [areEqual, Bool.and_eq_true] at h ⊢
    exact ⟨isEqual_symm t u h.1, areEqual_symm ts us h.2⟩
end

/-- Floating constants that are alike have one value. -/
theorem Alike.value_eq {obj obj' : ℕ} {cls cls' : TermClass} {type type' : Ty}
    {name name' : String} {subterms subterms' : List Term}
    (halike : Alike value (mk obj cls type name subterms) (mk obj' cls' type' name' subterms'))
    (hfloating : cls.isFloating = true) : value obj = value obj' := by
  have hother : cls.isMachine type = false := by
    cases cls <;> first | rfl | exact absurd hfloating (by simp [TermClass.isFloating])
  obtain ⟨hnode, -⟩ := halike
  rw [hother] at hnode
  obtain ⟨rfl, -, hdouble⟩ := hnode
  rw [TermClass.double, TermClass.double, if_pos hfloating, if_pos hfloating] at hdouble
  exact Option.some.inj hdouble

mutual
/-- Equality goes on from two terms that are alike. -/
theorem isEqual_trans : (t u s : Term) → Alike value t u → isEqual value t u = true →
    isEqual value u s = true → isEqual value t s = true
  | mk _ cls _ _ subterms, mk _ cls' _ _ subterms', mk _ cls'' _ _ subterms'' =>
    fun halike htu hus => by
      rcases isEqual_iff.1 htu with heq | ⟨hcls, hname, hsubterms, hnear⟩
      · rwa [heq]
      rcases isEqual_iff.1 hus with heq | ⟨hcls', hname', hsubterms', hnear'⟩
      · rwa [← heq]
      refine isEqual_iff.2 (Or.inr ⟨hcls.trans hcls', hname.trans hname',
        areEqual_trans subterms subterms' subterms'' halike.2 hsubterms hsubterms',
        fun hfloating => ?_⟩)
      rw [halike.value_eq hfloating]
      exact hnear' ((isFloating_congr hcls).symm.trans hfloating)

theorem areEqual_trans : (ts us ss : List Term) → AllAlike value ts us →
    areEqual value ts us = true → areEqual value us ss = true → areEqual value ts ss = true
  | [], [], _ => fun _ _ h => h
  | [], _ :: _, _ => fun _ h _ => absurd h (by simp [areEqual])
  | _ :: _, [], _ => fun _ h _ => absurd h (by simp [areEqual])
  | _ :: _, _ :: _, [] => fun _ _ h => absurd h (by simp [areEqual])
  | t :: ts, u :: us, s :: ss => fun halike htu hus => by
    rw [areEqual, Bool.and_eq_true] at htu hus ⊢
    exact ⟨isEqual_trans t u s halike.1 htu.1 hus.1, areEqual_trans ts us ss halike.2 htu.2 hus.2⟩
end

mutual
/-- Equal terms that are alike have one hash code. -/
theorem hashCode_congr (std : StdHash) : (t u : Term) → Alike value t u →
    isEqual value t u = true → hashCode value std t = hashCode value std u
  | mk _ cls _ _ subterms, mk _ cls' _ _ subterms' => fun halike h => by
    rcases isEqual_iff.1 h with heq | ⟨hcls, rfl, hsubterms, -⟩
    · rw [heq]
    have hcodes := hashCodes_congr std subterms subterms' halike.2 hsubterms 3
    rw [hashCode, hashCode, ← hcls, hcodes, ← isFloating_congr hcls]
    split_ifs with hfloating
    · rw [halike.value_eq hfloating]
    · rfl
    · rfl

theorem hashCodes_congr (std : StdHash) : (ts us : List Term) → AllAlike value ts us →
    areEqual value ts us = true →
      ∀ res, hashCodes value std res ts = hashCodes value std res us
  | [], [] => fun _ _ _ => rfl
  | [], _ :: _ => fun _ h => absurd h (by simp [areEqual])
  | _ :: _, [] => fun _ h => absurd h (by simp [areEqual])
  | t :: ts, u :: us => fun halike h res => by
    rw [areEqual, Bool.and_eq_true] at h
    rw [hashCodes, hashCodes, hashCode_congr std t u halike.1 h.1]
    exact hashCodes_congr std ts us halike.2 h.2 _
end

mutual
/-- **Equal terms that are alike have one value.** -/
theorem valueOf_congr (σ : MachineValuation) (other : OtherValues) : (t u : Term) →
    Alike value t u → isEqual value t u = true →
      valueOf value σ other t = valueOf value σ other u
  | mk _ cls type _ subterms, mk _ cls' type' _ subterms' => fun halike h => by
    rcases isEqual_iff.1 h with heq | ⟨-, rfl, hsubterms, -⟩
    · rw [heq]
    obtain ⟨hnode, hall⟩ := halike
    have hvalues := valuesOf_congr σ other subterms subterms' hall hsubterms
    rw [valueOf, valueOf, hvalues]
    cases hmachine : cls.isMachine type
    · rw [hmachine] at hnode
      obtain ⟨rfl, rfl, hdouble⟩ := hnode
      rw [hmachine, hdouble]
    · rw [hmachine] at hnode
      obtain ⟨hmachine', hfields, hread⟩ := hnode
      rw [hmachine']
      exact TermClass.machine_congr hmachine hfields hread σ _ _

theorem valuesOf_congr (σ : MachineValuation) (other : OtherValues) : (ts us : List Term) →
    AllAlike value ts us → areEqual value ts us = true →
      valuesOf value σ other ts = valuesOf value σ other us
  | [], [] => fun _ _ => rfl
  | [], _ :: _ => fun _ h => absurd h (by simp [areEqual])
  | _ :: _, [] => fun _ h => absurd h (by simp [areEqual])
  | t :: ts, u :: us => fun halike h => by
    rw [areEqual, Bool.and_eq_true] at h
    rw [valuesOf, valuesOf, valueOf_congr σ other t u halike.1 h.1,
      valuesOf_congr σ other ts us halike.2 h.2]
end

end Laws

/-- The laws of equality on a set of terms: an equivalence, equal hash codes, and equal values for
every valuation of the variables and all values of memory and of whatever else is not computed
here. -/
structure Interchangeable (value : ℕ → Double) (S : Set Term) : Prop where
  refl : ∀ t ∈ S, isEqual value t t = true
  symm : ∀ t ∈ S, ∀ u ∈ S, isEqual value t u = true → isEqual value u t = true
  trans : ∀ t ∈ S, ∀ u ∈ S, ∀ s ∈ S, isEqual value t u = true → isEqual value u s = true →
    isEqual value t s = true
  hashCode : ∀ std, ∀ t ∈ S, ∀ u ∈ S, isEqual value t u = true →
    hashCode value std t = hashCode value std u
  valueOf : ∀ σ other, ∀ t ∈ S, ∀ u ∈ S, isEqual value t u = true →
    valueOf value σ other t = valueOf value σ other u

/-- **Equal terms are interchangeable** among terms that are alike whenever they are equal. -/
theorem interchangeable_of_alike {value : ℕ → Double} {S : Set Term}
    (halike : ∀ t ∈ S, ∀ u ∈ S, isEqual value t u = true → Alike value t u) :
    Interchangeable value S where
  refl := fun t _ => isEqual_refl t
  symm := fun t _ u _ h => isEqual_symm t u h
  trans := fun t ht u hu s _ htu hus => isEqual_trans t u s (halike t ht u hu htu) htu hus
  hashCode := fun std t ht u hu h => hashCode_congr std t u (halike t ht u hu h) h
  valueOf := fun σ other t ht u hu h => valueOf_congr σ other t u (halike t ht u hu h) h

/-- The constant five of a width. -/
def five (width : ℕ) : Term := .mk 0 (.opaqueIntConstant 5) (.integer width .signed) "5" []

/-- Two objects for the constant five of one width. -/
theorem interchangeable_five :
    Interchangeable (fun _ => .nan)
      {five 32, .mk 1 (.opaqueIntConstant 5) (.integer 32 .unsigned) "5" []} := by
  refine interchangeable_of_alike ?_
  rintro t (rfl | rfl) u (rfl | rfl) - <;> exact ⟨⟨rfl, rfl, rfl⟩, trivial⟩

/-- **The constants five of 32 and of 64 bits are equal.** -/
theorem not_interchangeable : ¬ ∀ value : ℕ → Double, Interchangeable value Set.univ := by
  intro hclaim
  have hvalue := (hclaim fun _ => .nan).valueOf ⟨fun _ _ => 0, fun _ => false⟩
    ⟨fun _ _ _ _ _ => none⟩ (five 32) trivial (five 64) trivial (by decide)
  have hmeaning := Option.some.inj hvalue
  exact absurd (congrArg Meaning.width hmeaning) (by decide)

end Term

end Borealis
