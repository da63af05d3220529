import Borealis.Anno.Stack
import Mathlib.Data.List.Forall2

/-!
# The printer of productions

`printingVisitor` of `Anno/production.cpp`, and the trees it may be given.  The spaces of a printed
expression, its brackets and the spelling of its operators are the printer's own; they are not
taken from the grammar.

A floating constant is the text it was read from.  What a stream makes of a text, and how it writes
a value, is `Doubles`; of the numbers themselves nothing is assumed.

## The trees

`Expression` is what the rules of the grammar build: a leaf, a suffix, a sign or an operator at a
time.  The list of the arguments of a call is no expression of its own, and the second operand of
a member is a name.
-/

namespace Borealis.Anno

open Peg

/-! ## Floating constants -/

/-- A digit, or more of them. -/
abbrev Digits :=
  { text : List Char // text ≠ [] ∧ ∀ c ∈ text, isDigit c = true }

/-- The forms in which a stream with its default precision writes a `double` that has no sign and
is finite. -/
inductive Written
  | whole (value : Nat) (hvalue : value < 10 ^ 6)
  | fraction (digits decimals : Digits)
  | exponent (digits : Digits) (decimals : Option Digits) (sign : Bool) (power : Digits)

/-- The letter of the exponent, its sign and its digits. -/
def powerText (sign : Bool) (power : Digits) : List Char :=
  'e' :: (if sign then '-' else '+') :: power.1

def Written.text : Written → List Char
  | .whole value _ => Nat.toDigits 10 value
  | .fraction digits decimals => digits.1 ++ '.' :: decimals.1
  | .exponent digits none sign power => digits.1 ++ powerText sign power
  | .exponent digits (some decimals) sign power =>
      digits.1 ++ '.' :: (decimals.1 ++ powerText sign power)

/-- No point and no exponent is written. -/
def Written.IsWhole : Written → Prop
  | .whole _ _ => True
  | _ => False

/-- The streams on values of type `double`: `is >> val`, and `ost << val`. -/
structure Doubles where
  Value : Type
  read : List Char → Option Value
  write : Value → Written

/-! ## `printingVisitor` -/

/-- What an `int` is written as. -/
def integerText (value : Int) : List Char :=
  if value < 0 then '-' :: Nat.toDigits 10 value.natAbs else Nat.toDigits 10 value.natAbs

/-- `ops` of `onBinary`. -/
def BinOpcode.ops : BinOpcode → String
  | plus => "+"
  | minus => "-"
  | div => "/"
  | mult => "*"
  | mod => "%"
  | land => "&&"
  | lor => "||"
  | eq => "=="
  | ne => "!="
  | gt => ">"
  | lt => "<"
  | ge => ">="
  | le => "<="
  | band => "&"
  | bor => "|"
  | xor => "^"
  | lsh => "<<"
  | rsh => ">>"
  | _ => "???"

/-- `ops` of `onUnary`. -/
def UnOpcode.ops : UnOpcode → String
  | neg => "-"
  | not => "!"
  | bnot => "~"
  | _ => "???"

section

variable (doubles : Doubles)

mutual

/-- `operator<<` on a production. -/
def Production.printed : Production → List Char
  | .doubleConstant text =>
      match doubles.read text with
      | some value => (doubles.write value).text
      | none => []
  | .intConstant value => integerText value
  | .boolConstant value => '#' :: (if value then "true".toList else "false".toList)
  | .builtin vname => '\\' :: vname
  | .namedConstant vname => '@' :: vname
  | .productionList data => printedList data
  | .variable vname => vname
  | .binary .call op0 op1 => op0.printed ++ '(' :: (op1.printed ++ [')'])
  | .binary .index op0 op1 => op0.printed ++ '[' :: (op1.printed ++ [']'])
  | .binary .property op0 op1 => op0.printed ++ '.' :: op1.printed
  | .binary .indirProperty op0 op1 => op0.printed ++ '-' :: '>' :: op1.printed
  | .binary code op0 op1 =>
      '(' :: (op0.printed ++ ' ' :: (code.ops.toList ++ ' ' :: (op1.printed ++ [')'])))
  | .unary code op => code.ops.toList ++ op.printed

/-- `onList`: the head, and each of the rest behind a comma. -/
def printedList : List Production → List Char
  | [] => []
  | [prod] => prod.printed
  | prod :: prods => prod.printed ++ ',' :: ' ' :: printedList prods

end

end

/-! ## The trees of expressions -/

mutual

/-- The trees that the rules build.  A text that no `double` is read from stops the parser. -/
inductive Expression (doubles : Doubles)
  | doubleConstant (text : List Char) (value : doubles.Value)
      (hread : doubles.read text = some value)
  | intConstant (value : Int) (hvalue : -2 ^ 31 ≤ value ∧ value < 2 ^ 31)
  | boolConstant (value : Bool)
  | builtin (vname : Name)
  | namedConstant (vname : Name)
  | variable (vname : Name) (hname : FreeOfBoolean vname.1)
  | index (op0 op1 : Expression doubles)
  | call (op0 : Expression doubles) (args : Actuals doubles)
  | member (op0 : Expression doubles) (op : MemberOperator) (vname : Name)
  | unary (code : UnOpcode) (op0 : Expression doubles)
  | binary (op : BinaryOperator) (op0 op1 : Expression doubles)

/-- The arguments of a call, at least one. -/
inductive Actuals (doubles : Doubles)
  | first (arg : Expression doubles)
  | more (args : Actuals doubles) (arg : Expression doubles)

end

section

variable {doubles : Doubles}

mutual

def Expression.tree : Expression doubles → Production
  | .doubleConstant text _ _ => .doubleConstant text
  | .intConstant value _ => .intConstant value
  | .boolConstant value => .boolConstant value
  | .builtin vname => .builtin vname.1
  | .namedConstant vname => .namedConstant vname.1
  | .variable vname _ => .variable vname.1
  | .index op0 op1 => .binary .index op0.tree op1.tree
  | .call op0 args => .binary .call op0.tree (.productionList args.trees)
  | .member op0 op vname => .binary op.code op0.tree (.variable vname.1)
  | .unary code op0 => .unary code op0.tree
  | .binary op op0 op1 => .binary op.code op0.tree op1.tree

def Actuals.trees : Actuals doubles → List Production
  | .first arg => [arg.tree]
  | .more args arg => args.trees ++ [arg.tree]

end

/-! ## Equal trees -/

/-- Equal trees.  Floating constants are equal where their values are. -/
inductive SameTree (doubles : Doubles) : Production → Production → Prop
  | doubleConstant {text text' : List Char} {value : doubles.Value}
      (hread : doubles.read text = some value) (hread' : doubles.read text' = some value) :
      SameTree doubles (.doubleConstant text) (.doubleConstant text')
  | intConstant (value : Int) : SameTree doubles (.intConstant value) (.intConstant value)
  | boolConstant (value : Bool) : SameTree doubles (.boolConstant value) (.boolConstant value)
  | builtin (vname : List Char) : SameTree doubles (.builtin vname) (.builtin vname)
  | namedConstant (vname : List Char) :
      SameTree doubles (.namedConstant vname) (.namedConstant vname)
  | variable (vname : List Char) : SameTree doubles (.variable vname) (.variable vname)
  | productionList {data data' : List Production}
      (hdata : List.Forall₂ (SameTree doubles) data data') :
      SameTree doubles (.productionList data) (.productionList data')
  | binary (code : BinOpcode) {op0 op0' op1 op1' : Production} (hop0 : SameTree doubles op0 op0')
      (hop1 : SameTree doubles op1 op1') :
      SameTree doubles (.binary code op0 op1) (.binary code op0' op1')
  | unary (code : UnOpcode) {op op' : Production} (hop : SameTree doubles op op') :
      SameTree doubles (.unary code op) (.unary code op')

/-- What is printed is parsed to an equal tree. -/
def RoundTrips (doubles : Doubles) (tree : Production) : Prop :=
  ∃ tree', parseExpression (tree.printed doubles) = some tree' ∧ SameTree doubles tree' tree

/-! ## What the printer writes as something else -/

/-- The printer puts a unary operator in front. -/
def Expression.IsSigned : Expression doubles → Prop
  | .intConstant value _ => value < 0
  | .index op0 _ => op0.IsSigned
  | .call op0 _ => op0.IsSigned
  | .member op0 _ _ => op0.IsSigned
  | .unary _ _ => True
  | _ => False

/-- The last thing the printer writes are the digits of a number without a point. -/
def Expression.EndsInDigits : Expression doubles → Prop
  | .doubleConstant _ value _ => (doubles.write value).IsWhole
  | .intConstant _ _ => True
  | .unary _ op0 => op0.EndsInDigits
  | _ => False

mutual

/-- What is printed, the grammar can read: there is no boolean, no load and no implication in the
tree, no unary operator stands right before a unary operator, and no dot behind digits. -/
def Expression.Spelled : Expression doubles → Prop
  | .boolConstant _ => False
  | .index op0 op1 => op0.Spelled ∧ op1.Spelled
  | .call op0 args => op0.Spelled ∧ args.Spelled
  | .member op0 op _ => (op = .dot → ¬ op0.EndsInDigits) ∧ op0.Spelled
  | .unary code op0 => code ≠ .load ∧ ¬ op0.IsSigned ∧ op0.Spelled
  | .binary op op0 op1 => op ≠ .implication ∧ op0.Spelled ∧ op1.Spelled
  | _ => True

def Actuals.Spelled : Actuals doubles → Prop
  | .first arg => arg.Spelled
  | .more args arg => args.Spelled ∧ arg.Spelled

end

mutual

/-- What is printed is not read as another tree: every floating constant is written with a point or
an exponent, in enough digits; no integer is negative; no suffix stands behind an operand with a
unary operator; there is no shift to the right. -/
def Expression.Kept : Expression doubles → Prop
  | .doubleConstant _ value _ =>
      ¬ (doubles.write value).IsWhole ∧ doubles.read (doubles.write value).text = some value
  | .intConstant value _ => 0 ≤ value
  | .index op0 op1 => ¬ op0.IsSigned ∧ op0.Kept ∧ op1.Kept
  | .call op0 args => ¬ op0.IsSigned ∧ op0.Kept ∧ args.Kept
  | .member op0 _ _ => ¬ op0.IsSigned ∧ op0.Kept
  | .unary _ op0 => op0.Kept
  | .binary op op0 op1 => op ≠ .rightShift ∧ op0.Kept ∧ op1.Kept
  | _ => True

def Actuals.Kept : Actuals doubles → Prop
  | .first arg => arg.Kept
  | .more args arg => args.Kept ∧ arg.Kept

end

end

end Borealis.Anno
