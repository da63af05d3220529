import Mathlib.Data.List.Basic

/-!
# Types of terms

`Type/Type.def`: the type of every term.  Types are interned by `TypeFactory`, so the pointer
comparison the analyses make between two `Type::Ptr` is equality of `Ty`.  The body of a record
is reached through its name in the type context and is not part of the value.
-/

namespace Borealis

/-- `llvm::Signedness`. -/
inductive Signedness where
  | unknown
  | unsigned
  | signed
deriving DecidableEq, Repr

mutual
/-- `Type::Ptr`. -/
inductive Ty where
  | integer (bitsize : Nat) (signedness : Signedness)
  | bool
  | float
  | unknownType
  | pointer (pointed : Ty) (memspace : Nat)
  | array (element : Ty) (size : Option Nat)
  | record (name : String)
  | typeError (message : String)
  | function (retty : Ty) (args : TyList)
deriving DecidableEq, Repr

/-- `std::vector<Type::Ptr>`. -/
inductive TyList where
  | nil
  | cons (head : Ty) (tail : TyList)
deriving DecidableEq, Repr
end

/-- `TypeUtils::getPointerElementType`: the pointed type, `nullptr` for any other type. -/
def Ty.getPointerElementType : Ty → Option Ty
  | .pointer pointed _ => some pointed
  | _ => none

end Borealis
