import Borealis.Anno.Grammar

/-!
# Written expressions

What an annotation expression is, apart from the parser that reads it: the expression as it is
written, with its parentheses and spaces, the text it is written as, and the tree it stands for.
Precedence and associativity are those of C, with the implication below every operator of C.

`Rendering.Fits` says that the parentheses are enough for a context that takes operators up to a
rank.  More parentheses than needed are always allowed.
-/

namespace Borealis.Anno

open Peg

/-! ## Tokens -/

/-- Spaces after a token. -/
abbrev Spaces :=
  { text : List Char // ∀ c ∈ text, isSpace c = true }

/-- A name starts with a letter or an underscore, and goes on with these and digits. -/
def IsName : List Char → Prop
  | [] => False
  | c :: text => isIdent1 c = true ∧ text.all isIdent2 = true

instance : DecidablePred IsName
  | [] => inferInstanceAs (Decidable False)
  | c :: text => inferInstanceAs (Decidable (isIdent1 c = true ∧ text.all isIdent2 = true))

abbrev Name :=
  { text : List Char // IsName text }

/-- The leaves of an expression.  `true` and `false` are no names of variables, and an integer is a
`long long`. -/
inductive Leaf
  | identifier (name : Name) (hname : name.1 ≠ "true".toList ∧ name.1 ≠ "false".toList)
  | builtin (name : Name)
  | boolean (value : Bool)
  | integer (value : Nat) (hvalue : value < 2 ^ 63)

def Leaf.text : Leaf → List Char
  | .identifier name _ => name.1
  | .builtin name => '\\' :: name.1
  | .boolean true => "true".toList
  | .boolean false => "false".toList
  | .integer value _ => Nat.toDigits 10 value

def Leaf.tree : Leaf → Production
  | .identifier name _ => .variable name.1
  | .builtin name => .builtin name.1
  | .boolean value => .boolConstant value
  | .integer value _ => .intConstant value

/-- The binary operators, from those that bind tightest. -/
inductive BinaryOperator
  | multiply
  | divide
  | modulus
  | add
  | subtract
  | leftShift
  | rightShift
  | greaterOrEqual
  | greater
  | lessOrEqual
  | less
  | equal
  | notEqual
  | bitAnd
  | bitXor
  | bitOr
  | logicalAnd
  | logicalOr
  | implication
deriving DecidableEq

namespace BinaryOperator

def symbol : BinaryOperator → String
  | multiply => "*"
  | divide => "/"
  | modulus => "%"
  | add => "+"
  | subtract => "-"
  | leftShift => "<<"
  | rightShift => ">>"
  | greaterOrEqual => ">="
  | greater => ">"
  | lessOrEqual => "<="
  | less => "<"
  | equal => "=="
  | notEqual => "!="
  | bitAnd => "&"
  | bitXor => "^"
  | bitOr => "|"
  | logicalAnd => "&&"
  | logicalOr => "||"
  | implication => "==>"

def text (op : BinaryOperator) : List Char :=
  op.symbol.toList

def code : BinaryOperator → BinOpcode
  | multiply => .mult
  | divide => .div
  | modulus => .mod
  | add => .plus
  | subtract => .minus
  | leftShift => .lsh
  | rightShift => .rsh
  | greaterOrEqual => .ge
  | greater => .gt
  | lessOrEqual => .le
  | less => .lt
  | equal => .eq
  | notEqual => .ne
  | bitAnd => .band
  | bitXor => .xor
  | bitOr => .bor
  | logicalAnd => .land
  | logicalOr => .lor
  | implication => .implies

/-- The rank of an operator: the higher, the looser it binds. -/
def rank : BinaryOperator → Nat
  | multiply | divide | modulus => 0
  | add | subtract => 1
  | leftShift | rightShift => 2
  | greaterOrEqual | greater | lessOrEqual | less => 3
  | equal | notEqual => 4
  | bitAnd => 5
  | bitXor => 6
  | bitOr => 7
  | logicalAnd => 8
  | logicalOr => 9
  | implication => 10

end BinaryOperator

def UnOpcode.char : UnOpcode → Char
  | load => '*'
  | neg => '-'
  | not => '!'
  | bnot => '~'

/-- The two ways to name a member. -/
inductive MemberOperator
  | dot
  | arrow
deriving DecidableEq

def MemberOperator.text : MemberOperator → List Char
  | dot => ".".toList
  | arrow => "->".toList

def MemberOperator.code : MemberOperator → BinOpcode
  | dot => .property
  | arrow => .indirProperty

/-! ## Expressions as they are written -/

mutual

/-- An expression with its parentheses and the spaces after each of its tokens. -/
inductive Rendering
  | leaf (leaf : Leaf) (spaces : Spaces)
  | paren (opened : Spaces) (inner : Rendering) (closed : Spaces)
  | index (array : Rendering) (opened : Spaces) (inner : Rendering) (closed : Spaces)
  | emptyCall (callee : Rendering) (opened closed : Spaces)
  | call (callee : Rendering) (opened : Spaces) (args : Arguments) (closed : Spaces)
  | member (object : Rendering) (op : MemberOperator) (spaces : Spaces) (name : Name)
      (closed : Spaces)
  | unary (op : UnOpcode) (spaces : Spaces) (operand : Rendering)
  | binary (left : Rendering) (op : BinaryOperator) (spaces : Spaces) (right : Rendering)

/-- The arguments of a call, at least one. -/
inductive Arguments
  | first (arg : Rendering)
  | more (args : Arguments) (spaces : Spaces) (arg : Rendering)

end

mutual

/-- The text an expression is written as. -/
def Rendering.text : Rendering → List Char
  | .leaf leaf spaces => leaf.text ++ spaces.1
  | .paren opened inner closed => '(' :: (opened.1 ++ (inner.text ++ ')' :: closed.1))
  | .index array opened inner closed =>
      array.text ++ '[' :: (opened.1 ++ (inner.text ++ ']' :: closed.1))
  | .emptyCall callee opened closed => callee.text ++ '(' :: (opened.1 ++ ')' :: closed.1)
  | .call callee opened args closed =>
      callee.text ++ '(' :: (opened.1 ++ (args.text ++ ')' :: closed.1))
  | .member object op spaces name closed =>
      object.text ++ (op.text ++ (spaces.1 ++ (name.1 ++ closed.1)))
  | .unary op spaces operand => op.char :: (spaces.1 ++ operand.text)
  | .binary left op spaces right => left.text ++ (op.text ++ (spaces.1 ++ right.text))

def Arguments.text : Arguments → List Char
  | .first arg => arg.text
  | .more args spaces arg => args.text ++ ',' :: (spaces.1 ++ arg.text)

end

mutual

/-- The tree an expression stands for. -/
def Rendering.tree : Rendering → Production
  | .leaf leaf _ => leaf.tree
  | .paren _ inner _ => inner.tree
  | .index array _ inner _ => .binary .index array.tree inner.tree
  | .emptyCall callee _ _ => .binary .call callee.tree (.productionList [])
  | .call callee _ args _ => .binary .call callee.tree (.productionList args.trees)
  | .member object op _ name _ => .binary op.code object.tree (.variable name.1)
  | .unary op _ operand => .unary op operand.tree
  | .binary left op _ right => .binary op.code left.tree right.tree

def Arguments.trees : Arguments → List Production
  | .first arg => [arg.tree]
  | .more args _ arg => args.trees ++ [arg.tree]

end

mutual

/-- The expression may stand, as it is written, where operators up to a rank may: at rank `0`
postfix expressions, at rank `1` also unary ones, and at rank `n + 2` also binary operators of
rank `n`, which associate to the left. -/
def Rendering.Fits : Rendering → Nat → Prop
  | .leaf _ _, _ => True
  | .paren _ inner _, _ => inner.Fits 12
  | .index array _ inner _, _ => array.Fits 0 ∧ inner.Fits 12
  | .emptyCall callee _ _, _ => callee.Fits 0
  | .call callee _ args _, _ => callee.Fits 0 ∧ args.Fit
  | .member object _ _ _ _, _ => object.Fits 0
  | .unary _ _ operand, n => 1 ≤ n ∧ operand.Fits 1
  | .binary left op _ right, n =>
      op.rank + 2 ≤ n ∧ left.Fits (op.rank + 2) ∧ right.Fits (op.rank + 1)

def Arguments.Fit : Arguments → Prop
  | .first arg => arg.Fits 12
  | .more args _ arg => args.Fit ∧ arg.Fits 12

end

/-! ## Where the parser goes wrong -/

/-- A unary expression without parentheses around it. -/
def Rendering.IsUnary : Rendering → Prop
  | .unary _ _ _ => True
  | _ => False

/-- An integer with nothing after its digits. -/
def Rendering.IsBareInteger : Rendering → Prop
  | .leaf (.integer _ _) spaces => spaces.1 = []
  | _ => False

/-- The symbols of an expression that the rules have no place for: a call without arguments, a dot
right behind the digits of an integer, a unary operator right before a unary operator. -/
def Rendering.Spelled : Rendering → Prop
  | .emptyCall _ _ _ => False
  | .member object .dot _ _ _ => ¬ object.IsBareInteger
  | .unary _ _ operand => ¬ operand.IsUnary
  | _ => True

/-- The values that the actions do not keep: an integer that is no `int`, a variable whose name
starts with a boolean, a shift to the right. -/
def Rendering.Kept : Rendering → Prop
  | .leaf (.integer value _) _ => value < 2 ^ 31
  | .leaf (.identifier name _) _ => ¬ "true".toList <+: name.1 ∧ ¬ "false".toList <+: name.1
  | .binary _ op _ _ => op ≠ .rightShift
  | _ => True

mutual

/-- Every expression written inside an expression, itself included, has a property. -/
def Rendering.All (p : Rendering → Prop) : Rendering → Prop
  | .leaf leaf spaces => p (.leaf leaf spaces)
  | .paren opened inner closed => p (.paren opened inner closed) ∧ inner.All p
  | .index array opened inner closed =>
      p (.index array opened inner closed) ∧ array.All p ∧ inner.All p
  | .emptyCall callee opened closed => p (.emptyCall callee opened closed) ∧ callee.All p
  | .call callee opened args closed =>
      p (.call callee opened args closed) ∧ callee.All p ∧ args.All p
  | .member object op spaces name closed =>
      p (.member object op spaces name closed) ∧ object.All p
  | .unary op spaces operand => p (.unary op spaces operand) ∧ operand.All p
  | .binary left op spaces right => p (.binary left op spaces right) ∧ left.All p ∧ right.All p

def Arguments.All (p : Rendering → Prop) : Arguments → Prop
  | .first arg => arg.All p
  | .more args _ arg => args.All p ∧ arg.All p

end

end Borealis.Anno
