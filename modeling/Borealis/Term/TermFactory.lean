import Borealis.Term.Term

/-!
# The term factory

The methods of `TermFactory` that build compound terms.  A compound term composes its name from the
names of its subterms and merges its type from theirs; nothing here depends on how, so both are
parameters.
-/

namespace Borealis

/-- What the factory methods compute for a compound term: its type and its name. -/
structure TermFactory where
  type : TermClass → Ty → List Term → Ty
  name : TermClass → Ty → List Term → String

namespace TermFactory

variable (FN : TermFactory)

/-- `getBinaryTerm`. -/
def getBinaryTerm (opcode : ArithType) (lhv rhv : Term) : Term :=
  .mk 0 (.binary opcode) (FN.type (.binary opcode) .unknownType [lhv, rhv])
    (FN.name (.binary opcode) .unknownType [lhv, rhv]) [lhv, rhv]

/-- `getCmpTerm`. -/
def getCmpTerm (opcode : ConditionType) (lhv rhv : Term) : Term :=
  .mk 0 (.cmp opcode) (FN.type (.cmp opcode) .bool [lhv, rhv])
    (FN.name (.cmp opcode) .bool [lhv, rhv]) [lhv, rhv]

/-- `getTernaryTerm`. -/
def getTernaryTerm (cnd tru fls : Term) : Term :=
  .mk 0 .ternary (FN.type .ternary .unknownType [cnd, tru, fls])
    (FN.name .ternary .unknownType [cnd, tru, fls]) [cnd, tru, fls]

/-- `getUnaryTerm`. -/
def getUnaryTerm (opcode : UnaryArithType) (rhv : Term) : Term :=
  .mk 0 (.unary opcode) (FN.type (.unary opcode) .unknownType [rhv])
    (FN.name (.unary opcode) .unknownType [rhv]) [rhv]

/-- `getSignTerm`. -/
def getSignTerm (rhv : Term) : Term :=
  .mk 0 .sign (FN.type .sign .unknownType [rhv]) (FN.name .sign .unknownType [rhv]) [rhv]

/-- `getCastTerm`: the type is the one that is asked for. -/
def getCastTerm (type : Ty) (signExtend : Bool) (rhv : Term) : Term :=
  .mk 0 (.cast signExtend) type (FN.name (.cast signExtend) type [rhv]) [rhv]

/-- `getIntTerm` of a 64-bit number. -/
def getIntTerm (value : Int) (type : Ty) : Term :=
  .mk 0 (.opaqueIntConstant value) type (toString value) []

/-- `getValueTerm` of a local value. -/
def getValueTerm (type : Ty) (name : String) : Term :=
  .mk 0 (.value false) type name []

/-- `getBooleanTerm`. -/
def getBooleanTerm (b : Bool) : Term :=
  .mk 0 (.opaqueBoolConstant b) .bool (toString b) []

end TermFactory

end Borealis
