import Borealis.Anno.Production

/-!
# The grammar of annotation expressions

The expression rules of `Anno/grammar.hpp`, rule by rule.  A rule that refers to the whole
expression takes the parser for it, `readExpr`, as an argument; `readExpr` itself nests at most as
deep as its first argument says, and every nesting reads an opening bracket.

The rules for the levels of binary operators are one definition, `readBinary`, applied to the
operators of each level in the order the rule tries them.
-/

namespace Borealis.Anno

open Peg

abbrev ExprParser := Parser ExprStack

/-! ## Lexical rules -/

def isDigit (c : Char) : Bool :=
  range '0' '9' c

def isXdigit (c : Char) : Bool :=
  isDigit c || range 'a' 'f' c || range 'A' 'F' c

def isAlpha (c : Char) : Bool :=
  range 'a' 'z' c || range 'A' 'Z' c

/-- `ident1`. -/
def isIdent1 (c : Char) : Bool :=
  c == '_' || isAlpha c

/-- `ident2`. -/
def isIdent2 (c : Char) : Bool :=
  isDigit c || isIdent1 c

/-- `CH(C)`. -/
def ch (c : Char) : ExprParser :=
  char (· == c)

def identifier : ExprParser :=
  seq (char isIdent1) (star (char isIdent2))

def integer : ExprParser :=
  sor (sor (ifmust (seq (ch '0') (char fun c => c == 'x' || c == 'X')) (plus (char isXdigit)))
    (ifmust (ch '0') (star (char (range '0' '7')))))
    (seq (char (range '1' '9')) (star (char isDigit)))

def boolean : ExprParser :=
  sor (string "true".toList) (string "false".toList)

def exponent : ExprParser :=
  ifmust (ifmust (char fun c => c == 'e' || c == 'E') (char fun c => c == '+' || c == '-'))
    (plus (char isDigit))

def floating : ExprParser :=
  sor (sor (seq (plus (char isDigit)) exponent)
    (seq (seq (seq (star (char isDigit)) (ch '.')) (plus (char isDigit))) (opt exponent)))
    (seq (seq (seq (plus (char isDigit)) (ch '.')) (star (char isDigit))) (opt exponent))

def pushIntegerRule : ExprParser :=
  pad (ifapply integer pushInteger)

def pushBooleanRule : ExprParser :=
  pad (ifapply boolean pushBool)

def pushFloatingRule : ExprParser :=
  pad (ifapply floating pushDouble)

def pushVariableRule : ExprParser :=
  pad (ifapply identifier pushString)

def pushBuiltinRule : ExprParser :=
  pad (ifapply (seq (ch '\\') identifier) pushString)

def pushSymbolRule : ExprParser :=
  pad (ifapply (seq (ch '@') identifier) pushString)

def pushPrimitive : ExprParser :=
  choice [pushFloatingRule, pushIntegerRule, pushBooleanRule, pushVariableRule, pushBuiltinRule,
    pushSymbolRule]

def chpad (c : Char) : ExprParser :=
  pad (ch c)

def strpad (text : List Char) : ExprParser :=
  pad (string text)

def readOpen : ExprParser := chpad '('
def readSqOpen : ExprParser := chpad '['
def readClose : ExprParser := chpad ')'
def readSqClose : ExprParser := chpad ']'
def readComma : ExprParser := chpad ','
def readDot : ExprParser := chpad '.'
def readArrow : ExprParser := strpad "->".toList

/-! ## Expressions -/

section

variable (readExpr : ExprParser)

def readAtom : ExprParser :=
  sor pushPrimitive (seq readOpen (seq readExpr readClose))

def readExprList : ExprParser :=
  ifapply (ifmust readComma readExpr) opCollectList

def readExprList2 : ExprParser :=
  seq (ifapply (ifapply readExpr pushEmptyList) opCollectList) (star (readExprList readExpr))

def readPropertyExpr : ExprParser :=
  ifapply (seq readDot pushVariableRule) (opBaction .property)

def readIndirectPropertyExpr : ExprParser :=
  ifapply (seq readArrow pushVariableRule) (opBaction .indirProperty)

def readIndexExpr : ExprParser :=
  ifapply (ifmust (ifmust readSqOpen readExpr) readSqClose) (opBaction .index)

def readCallingExpr : ExprParser :=
  ifapply (ifmust (ifmust readOpen (readExprList2 readExpr)) readClose) (opBaction .call)

/-- What may follow the atom of a postfix expression. -/
def readSuffix : ExprParser :=
  sor (sor (sor (readIndexExpr readExpr) (readCallingExpr readExpr)) readPropertyExpr)
    readIndirectPropertyExpr

def readPostfixExpr : ExprParser :=
  seq (readAtom readExpr) (star (readSuffix readExpr))

/-- `READ_UNARY(op, read_postfix_expr, a)`. -/
def readUop (op : String) (a : UnOpcode) : ExprParser :=
  ifapply (seq (strpad op.toList) (readPostfixExpr readExpr)) (opUaction a)

def readLoad : ExprParser := readUop readExpr "*" .load
def readNeg : ExprParser := readUop readExpr "-" .neg
def readNot : ExprParser := readUop readExpr "!" .not
def readBnot : ExprParser := readUop readExpr "~" .bnot

def readUnary : ExprParser :=
  choice [readLoad readExpr, readNeg readExpr, readNot readExpr, readBnot readExpr,
    readPostfixExpr readExpr]

/-- `READ_BINARY(op, o, a)`. -/
def readBop (op : String) (o : ExprParser) (a : BinOpcode) : ExprParser :=
  ifapply (seq (strpad op.toList) o) (opBaction a)

/-- A level of left-associative binary operators over an operand. -/
def readBinary (o : ExprParser) (ops : List (String × BinOpcode)) : ExprParser :=
  seq o (star (choice (ops.map fun op => readBop op.1 o op.2)))

def readProd : ExprParser :=
  readBinary (readUnary readExpr) [("*", .mult), ("/", .div), ("%", .mod)]

def readSum : ExprParser :=
  readBinary (readProd readExpr) [("+", .plus), ("-", .minus)]

/-- Both shifts have the action of the left one. -/
def readShift : ExprParser :=
  readBinary (readSum readExpr) [("<<", .lsh), (">>", .lsh)]

def readInequality : ExprParser :=
  readBinary (readShift readExpr) [(">=", .ge), (">", .gt), ("<=", .le), ("<", .lt)]

def readEquality : ExprParser :=
  readBinary (readInequality readExpr) [("==", .eq), ("!=", .ne)]

def readBitand2 : ExprParser :=
  readBinary (readEquality readExpr) [("&", .band)]

def readBitxor2 : ExprParser :=
  readBinary (readBitand2 readExpr) [("^", .xor)]

def readBitor2 : ExprParser :=
  readBinary (readBitxor2 readExpr) [("|", .bor)]

def readLand2 : ExprParser :=
  readBinary (readBitor2 readExpr) [("&&", .land)]

def readLor2 : ExprParser :=
  readBinary (readLand2 readExpr) [("||", .lor)]

def readImplies2 : ExprParser :=
  readBinary (readLor2 readExpr) [("==>", .implies)]

end

/-- `read_expr`; `error` where the nesting is deeper than `depth`. -/
def readExpr : Nat → ExprParser
  | 0 => fun _ _ => .error
  | depth + 1 => readImplies2 (readExpr depth)

/-- `space_until_eof`. -/
def spaceUntilEof : ExprParser :=
  seq (star (char isSpace)) eof

/-- The tree of an expression that is the whole input: `ask_arguments` asserts that it is alone on
the stack. -/
def parseExpression (input : List Char) : Option Production :=
  match seq (readExpr (input.length + 1)) spaceUntilEof input [] with
  | .matched _ [tree] => some tree
  | _ => none

end Borealis.Anno
