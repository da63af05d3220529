import Borealis.Term.Term

/-!
# C types

`Codegen/CType`: the types that the debug information gives to the variables of annotations.  Types
are interned under their names, so the pointer comparisons of `CTypeUtils` are equalities of
`CType`.  The members of a structure and the arguments of a function are not looked at here.
-/

namespace Borealis

/-- `CType`. -/
inductive CType where
  | void
  | integer (name : String) (bitsize : ℕ) (signedness : Signedness)
  | float (name : String) (bitsize : ℕ)
  | pointer (element : CType)
  | aliased (name : String) (original : CType)
  | array (element : CType) (size : Option ℕ)
  | struct (name : String)
  | function (name : String)
deriving DecidableEq

namespace CType

/-- `CTypeUtils::stripAllAliasing`. -/
def stripAllAliasing : CType → CType
  | .aliased _ original => original.stripAllAliasing
  | type => type

/-- `CTypeUtils::decayType`. -/
def decayType (type : CType) : CType :=
  match type.stripAllAliasing with
  | .array element _ => .pointer element
  | type => type

/-- `CTypeUtils::getSignedness`. -/
def getSignedness (type : CType) : Signedness :=
  match type.stripAllAliasing with
  | .pointer _ => .unsigned
  | .integer _ _ signedness => signedness
  | _ => .unknown

/-- `CTypeUtils::commonType`; no type is a null pointer. -/
def commonType (lhv rhv : Option CType) : Option CType :=
  match lhv, rhv with
  | none, rhv => rhv
  | lhv, none => lhv
  | some lhv, some rhv =>
    if lhv = rhv then some lhv
    else
      let lhv := lhv.stripAllAliasing
      let rhv := rhv.stripAllAliasing
      if lhv = rhv then some lhv
      else
        let lhv := lhv.decayType
        let rhv := rhv.decayType
        if lhv = rhv then some lhv
        else
          match lhv, rhv with
          | .pointer lhve, .pointer rhve =>
            if lhve = .void ∨ rhve = .void then some (.pointer .void)
            else if lhve.stripAllAliasing = rhve.stripAllAliasing then
              some (.pointer lhve.stripAllAliasing)
            else some (.pointer .void)
          | .integer _ lhvBits lhvSign, .integer _ rhvBits rhvSign =>
            if lhvBits > rhvBits then some lhv
            else if lhvBits < rhvBits then some rhv
            else if lhvSign = .unknown then some rhv
            else if rhvSign = .unknown then some lhv
            else if lhvSign = .unsigned then some lhv
            else some rhv
          | .pointer _, .integer .. | .float .., .integer .. => some lhv
          | .integer .., .pointer _ | .integer .., .float .. => some rhv
          | _, _ => none

/-- The signedness of the common type of two integer types is the one of the wider type, and
unsigned among types of one width if one of them is. -/
theorem getSignedness_commonType {lhv rhv : CType} {lname rname : String} {m n : ℕ}
    {s t : Signedness} (hl : lhv.stripAllAliasing = .integer lname m s)
    (hr : rhv.stripAllAliasing = .integer rname n t) (hs : s ≠ .unknown) (ht : t ≠ .unknown) :
    (commonType (some lhv) (some rhv)).map getSignedness =
      some (if m > n then s else if m < n then t else if s = .unsigned then s else t) := by
  have hlhv : lhv.getSignedness = s := by simp only [getSignedness, hl]
  have hsame : ∀ {name name' bits bits' sign sign'},
      integer name bits sign = integer name' bits' sign' → bits = bits' ∧ sign = sign' := by
    rintro _ _ _ _ _ _ ⟨⟩
    exact ⟨rfl, rfl⟩
  unfold commonType
  simp only
  split
  · next heq =>
      subst heq
      obtain ⟨rfl, rfl⟩ := hsame (hl.symm.trans hr)
      simp [hlhv]
  · simp only [hl, hr, decayType, stripAllAliasing]
    split
    · next heq =>
        obtain ⟨rfl, rfl⟩ := hsame heq
        simp [getSignedness, stripAllAliasing]
    · split
      · rfl
      · split
        · rfl
        · split
          · rfl
          · rfl

end CType

/-- `llvm::forceUnsigned`. -/
def ConditionType.forceUnsigned : ConditionType → ConditionType
  | .gt => .ugt
  | .ge => .uge
  | .lt => .ult
  | .le => .ule
  | op => op

end Borealis
