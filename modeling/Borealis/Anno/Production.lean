import Borealis.Lib.Peg
import Mathlib.Algebra.Group.Nat.Defs

/-!
# Productions and the actions that build them

The expression trees of `Anno/production.h`, and the parser actions of `Anno/calculator.hpp` over
the stack of expressions.  A string is a list of characters.

A floating constant keeps its text: its value is not looked at.

An action answers `none` where the source throws or fails an assertion.
-/

namespace Borealis.Anno

/-- `un_opcode`. -/
inductive UnOpcode
  | load
  | neg
  | not
  | bnot
deriving DecidableEq, Repr

/-- `bin_opcode`. -/
inductive BinOpcode
  | plus
  | minus
  | mult
  | div
  | mod
  | eq
  | ne
  | gt
  | lt
  | ge
  | le
  | land
  | lor
  | band
  | bor
  | xor
  | lsh
  | rsh
  | call
  | index
  | property
  | indirProperty
  | implies
deriving DecidableEq, Repr

/-- `production`. -/
inductive Production
  | doubleConstant (text : List Char)
  | intConstant (value : Int)
  | boolConstant (value : Bool)
  | builtin (vname : List Char)
  | namedConstant (vname : List Char)
  | productionList (data : List Production)
  | variable (vname : List Char)
  | binary (code : BinOpcode) (op0 op1 : Production)
  | unary (code : UnOpcode) (op : Production)
deriving Repr

/-- `expr_stack`, its top first. -/
abbrev ExprStack := List Production

/-! ## Reading a number -/

/-- The value of a digit in bases up to sixteen. -/
def digitValue (c : Char) : Option Nat :=
  if Peg.range '0' '9' c then some (c.toNat - '0'.toNat)
  else if Peg.range 'a' 'f' c then some (c.toNat - 'a'.toNat + 10)
  else if Peg.range 'A' 'F' c then some (c.toNat - 'A'.toNat + 10)
  else none

/-- The number a text of digits denotes; `none` where a character is no digit of the base. -/
def ofDigits (base : Nat) (text : List Char) : Option Nat :=
  text.foldlM (fun value c =>
    match digitValue c with
    | some d => if d < base then some (value * base + d) else none
    | none => none) 0

/-- `is >> val`, of a text of digits: a number above the greatest `long long` is not read. -/
def readNumber (base : Nat) (text : List Char) : Option Int :=
  if text = [] then none
  else
    match ofDigits base text with
    | some value => if value < 2 ^ 63 then some value else none
    | none => none

/-- `string_cast<long long>`. -/
def stringCastInteger (text : List Char) : Option Int :=
  if text.take 2 = ['0', 'x'] then readNumber 16 (text.drop 2)
  else if text.take 1 = ['0'] ∧ text ≠ ['0'] then readNumber 8 (text.drop 1)
  else readNumber 10 text

/-- `string_cast<bool>`. -/
def stringCastBool (text : List Char) : Option Bool :=
  if text = "true".toList then some true
  else if text = "false".toList then some false
  else none

/-! ## The factory -/

/-- The conversion of a `long long` to an `int`. -/
def toInt32 (value : Int) : Int :=
  (BitVec.ofInt 32 value).toInt

/-- `createInt`, which takes an `int`. -/
def createInt (value : Int) : Production :=
  .intConstant (toInt32 value)

/-- `bind(const std::string&)`. -/
def bindString (text : List Char) : Production :=
  match text with
  | '\\' :: vname => .builtin vname
  | '@' :: vname => .namedConstant vname
  | vname => .variable vname

/-- What `get_list_visitor` collects. -/
def Production.toList : Production → List Production
  | .productionList data => data
  | arg => [arg]

/-- `createEmptyList`. -/
def createEmptyList : Production :=
  .productionList []

/-- `createList`. -/
def createList (op0 op1 : Production) : Production :=
  .productionList (op0.toList ++ op1.toList)

/-! ## Actions -/

/-- `push<long long>`. -/
def pushInteger (text : List Char) (stack : ExprStack) : Option ExprStack :=
  match stringCastInteger text with
  | some value => some (createInt value :: stack)
  | none => none

/-- `push<bool>`. -/
def pushBool (text : List Char) (stack : ExprStack) : Option ExprStack :=
  match stringCastBool text with
  | some value => some (.boolConstant value :: stack)
  | none => none

/-- `push<double>`. -/
def pushDouble (text : List Char) (stack : ExprStack) : Option ExprStack :=
  some (.doubleConstant text :: stack)

/-- `push<stdstring>`. -/
def pushString (text : List Char) (stack : ExprStack) : Option ExprStack :=
  some (bindString text :: stack)

/-- `push_empty_list`. -/
def pushEmptyList (_ : List Char) (stack : ExprStack) : Option ExprStack :=
  some (createEmptyList :: stack)

/-- `op_collect_list`. -/
def opCollectList (_ : List Char) : ExprStack → Option ExprStack
  | rhs :: lhs :: stack => some (createList lhs rhs :: stack)
  | _ => none

/-- `op_baction` of the operation that builds a binary production. -/
def opBaction (code : BinOpcode) (_ : List Char) : ExprStack → Option ExprStack
  | rhs :: lhs :: stack => some (.binary code lhs rhs :: stack)
  | _ => none

/-- `op_uaction` of the operation that builds a unary production. -/
def opUaction (code : UnOpcode) (_ : List Char) : ExprStack → Option ExprStack
  | arg :: stack => some (.unary code arg :: stack)
  | _ => none

end Borealis.Anno
