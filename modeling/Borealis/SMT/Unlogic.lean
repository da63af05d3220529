import Borealis.Lib.RoseTree
import Borealis.SMT.TermTranslation

/-!
# Terms recovered from expressions of MathSAT

`undoThat` of `SMT/MathSAT/Unlogic`, for the expressions over booleans and bit vectors, and the
translation of its results back to the solver.  Uninterpreted functions, and the arithmetic of
integers and rational numbers, are left out.

The visitor calls `callback` on an expression before its arguments.  `makeSymbol` empties the stack
that this leaves, the last expression first, and puts the tree together.

## Strategy

The symbols of an expression in the order of the visit are the preorder of a `RoseTree`, so
`RoseTree.rebuild_preorder` gives `makeSymbol`, and `undoThat` always returns a term
(`undoThat_eq`).  What the term means is compared node by node: an expression whose arguments are
recovered is recovered exactly when its own operator is (`redone_iff`).

Five operators are not recovered for all operands.  `BV_UDIV` and `BV_UREM` become the division and
the remainder that `/` and `%` make signed, `BV_ASHR` becomes the shift that `>>` makes logical,
`BV_NOT` is translated by the negation of booleans, and every `BV_EXTRACT` becomes the sign.  A
constant of 64 bits loses its top bit.
-/

namespace Borealis

namespace Unlogic

/-! ## The expressions -/

/-- The sizes of bit vectors. -/
abbrev Width := { w : ℕ // 0 < w ∧ w ≤ 64 }

/-- The size of a range of bits. -/
def Width.range (w : Width) {msb : ℕ} (lsb : ℕ) (hmsb : msb < w.1) : Width :=
  have hle : msb - lsb + 1 ≤ 64 := (Nat.succ_le_succ (Nat.sub_le _ _)).trans (hmsb.trans_le w.2.2)
  ⟨msb - lsb + 1, Nat.succ_pos _, hle⟩

/-- `mathsat::Sort`. -/
inductive MsatType
  | bool
  | bv (w : Width)

namespace MsatType

/-- The values of a sort. -/
@[reducible]
def Value : MsatType → Type
  | bool => Bool
  | bv w => BitVec w.1

/-- A value as the value of a term. -/
def meaning : (s : MsatType) → s.Value → Meaning
  | bool, b => .bool b
  | bv w, x => .bv w.1 x

/-- The value of a variable. -/
def assigned (σ : MachineValuation) (name : String) : (s : MsatType) → s.Value
  | bool => σ.bool name
  | bv w => σ.bv w.1 name

/-- The type that `ValueSymbol` gives its term. -/
def type : MsatType → Ty
  | bool => .bool
  | bv w => .integer w.1 .unknown

end MsatType

/-- The tags of `UnaryOperationSymbol`. -/
inductive UnaryTag : MsatType → Type
  | not : UnaryTag .bool
  | bvNot (w : Width) : UnaryTag (.bv w)
  | bvNeg (w : Width) : UnaryTag (.bv w)

/-- The tags of `BinaryOperationSymbol`. -/
inductive BinaryTag : MsatType → Type
  | and : BinaryTag .bool
  | or : BinaryTag .bool
  | bvMul (w : Width) : BinaryTag (.bv w)
  | bvAdd (w : Width) : BinaryTag (.bv w)
  | bvAnd (w : Width) : BinaryTag (.bv w)
  | bvOr (w : Width) : BinaryTag (.bv w)
  | bvXor (w : Width) : BinaryTag (.bv w)
  | bvSub (w : Width) : BinaryTag (.bv w)
  | bvUdiv (w : Width) : BinaryTag (.bv w)
  | bvSdiv (w : Width) : BinaryTag (.bv w)
  | bvUrem (w : Width) : BinaryTag (.bv w)
  | bvSrem (w : Width) : BinaryTag (.bv w)
  | bvLshl (w : Width) : BinaryTag (.bv w)
  | bvLshr (w : Width) : BinaryTag (.bv w)
  | bvAshr (w : Width) : BinaryTag (.bv w)

/-- The tags of `CmpOperationSymbol`. -/
inductive CmpTag
  | eq | bvSle | bvSlt | bvUle | bvUlt

/-- `mathsat::Expr`, well sorted. -/
inductive Expr : MsatType → Type
  | boolVal (b : Bool) : Expr .bool
  | bvVal {w : Width} (x : BitVec w.1) : Expr (.bv w)
  | constant (s : MsatType) (name : String) : Expr s
  | unary {s : MsatType} (tag : UnaryTag s) (arg : Expr s) : Expr s
  | iff (lhv rhv : Expr .bool) : Expr .bool
  | binary {s : MsatType} (tag : BinaryTag s) (lhv rhv : Expr s) : Expr s
  | cmp {w : Width} (tag : CmpTag) (lhv rhv : Expr (.bv w)) : Expr .bool
  | ite {s : MsatType} (cond : Expr .bool) (tru fls : Expr s) : Expr s
  | extract {w : Width} (msb lsb : ℕ) (hmsb : msb < w.1) (hlsb : lsb ≤ msb) (arg : Expr (.bv w)) :
      Expr (.bv (w.range lsb hmsb))

/-! ## What the solver means by them -/

def UnaryTag.value : {s : MsatType} → UnaryTag s → s.Value → s.Value
  | _, .not, b => !b
  | _, .bvNot _, x => ~~~x
  | _, .bvNeg _, x => -x

/-- A division by zero has the value that SMT-LIB gives it. -/
def BinaryTag.value : {s : MsatType} → BinaryTag s → s.Value → s.Value → s.Value
  | _, .and, a, b => a && b
  | _, .or, a, b => a || b
  | _, .bvMul _, x, y => x * y
  | _, .bvAdd _, x, y => x + y
  | _, .bvAnd _, x, y => x &&& y
  | _, .bvOr _, x, y => x ||| y
  | _, .bvXor _, x, y => x ^^^ y
  | _, .bvSub _, x, y => x - y
  | _, .bvUdiv _, x, y => BitVec.smtUDiv x y
  | _, .bvSdiv _, x, y => BitVec.smtSDiv x y
  | _, .bvUrem _, x, y => x % y
  | _, .bvSrem _, x, y => BitVec.srem x y
  | _, .bvLshl _, x, y => x <<< y
  | _, .bvLshr _, x, y => x >>> y
  | _, .bvAshr _, x, y => BitVec.sshiftRight' x y

def CmpTag.value {w : ℕ} : CmpTag → BitVec w → BitVec w → Bool
  | .eq, x, y => decide (x = y)
  | .bvSle, x, y => x.sle y
  | .bvSlt, x, y => x.slt y
  | .bvUle, x, y => x.ule y
  | .bvUlt, x, y => x.ult y

/-- The value of an expression. -/
def Expr.value (σ : MachineValuation) : {s : MsatType} → Expr s → s.Value
  | _, .boolVal b => b
  | _, .bvVal x => x
  | _, .constant s name => s.assigned σ name
  | _, .unary tag arg => tag.value (arg.value σ)
  | _, .iff lhv rhv => lhv.value σ == rhv.value σ
  | _, .binary tag lhv rhv => tag.value (lhv.value σ) (rhv.value σ)
  | _, .cmp tag lhv rhv => tag.value (lhv.value σ) (rhv.value σ)
  | _, .ite cond tru fls => if cond.value σ then tru.value σ else fls.value σ
  | _, .extract msb lsb _ _ arg => BitVec.extractLsb' lsb (msb - lsb + 1) (arg.value σ)

/-- `Expr::visit`: what the callback returns, call by call. -/
def Expr.visit {β : Type} (func : (s : MsatType) → Expr s → β) : {s : MsatType} → Expr s → List β
  | _, .boolVal b => [func _ (.boolVal b)]
  | _, .bvVal x => [func _ (.bvVal x)]
  | _, .constant s name => [func _ (.constant s name)]
  | _, .unary tag arg => func _ (.unary tag arg) :: arg.visit func
  | _, .iff lhv rhv => func _ (.iff lhv rhv) :: (lhv.visit func ++ rhv.visit func)
  | _, .binary tag lhv rhv => func _ (.binary tag lhv rhv) :: (lhv.visit func ++ rhv.visit func)
  | _, .cmp tag lhv rhv => func _ (.cmp tag lhv rhv) :: (lhv.visit func ++ rhv.visit func)
  | _, .ite cond tru fls =>
    func _ (.ite cond tru fls) :: (cond.visit func ++ (tru.visit func ++ fls.visit func))
  | _, .extract msb lsb hmsb hlsb arg => func _ (.extract msb lsb hmsb hlsb arg) :: arg.visit func

/-- The occurrences of expressions in an expression. -/
def Expr.subexpressions {s : MsatType} (e : Expr s) : List (Σ s, Expr s) :=
  e.visit Sigma.mk

/-! ## Symbols -/

/-- The classes of symbols, with the fields that they read from their expressions. -/
inductive SymbolClass
  | value (s : MsatType) (name : String)
  | true
  | false
  | constant (w : Width) (number : ℕ)
  | unaryOperation {s : MsatType} (tag : UnaryTag s)
  | iffOperation
  | binaryOperation {s : MsatType} (tag : BinaryTag s)
  | cmpOperation (tag : CmpTag)
  | iteOperation
  | extract

/-- A symbol with its arguments. -/
abbrev AbstractSymbol := RoseTree SymbolClass

/-- `numArgs`. -/
def SymbolClass.numArgs : SymbolClass → ℕ
  | value _ _ | true | false | constant _ _ => 0
  | unaryOperation _ | extract => 1
  | iffOperation | binaryOperation _ | cmpOperation _ => 2
  | iteOperation => 3

/-- `isTerminal`. -/
def SymbolClass.isTerminal (symbol : SymbolClass) : Bool := symbol.numArgs == 0

/-- `SymbolFactory`. -/
def SymbolFactory : (s : MsatType) → Expr s → SymbolClass
  | _, .boolVal b => if b then .true else .false
  | _, .bvVal (w := w) x => .constant w x.toNat
  | _, .constant s name => .value s name
  | _, .ite _ _ _ => .iteOperation
  | _, .iff _ _ => .iffOperation
  | _, .unary tag _ => .unaryOperation tag
  | _, .binary tag _ _ => .binaryOperation tag
  | _, .cmp tag _ _ => .cmpOperation tag
  | _, .extract _ _ _ _ _ => .extract

/-- The loop of `makeSymbol` over the symbol stack. -/
def makeSymbolLoop : List SymbolClass → List AbstractSymbol → Option (List AbstractSymbol)
  | [], terminalStack => some terminalStack
  | symbol :: symbolStack, terminalStack =>
    if symbol.isTerminal then
      makeSymbolLoop symbolStack (.node symbol [] :: terminalStack)
    else if symbol.numArgs ≤ terminalStack.length then
      makeSymbolLoop symbolStack
        (.node symbol (terminalStack.take symbol.numArgs) :: terminalStack.drop symbol.numArgs)
    else none

/-- `makeSymbol`. -/
def makeSymbol (symbolStack : List SymbolClass) : Option AbstractSymbol :=
  match makeSymbolLoop symbolStack [] with
  | some [symbol] => some symbol
  | _ => none

/-- `unaryType`. -/
def UnaryTag.unaryType : {s : MsatType} → UnaryTag s → UnaryArithType
  | _, .not => .not
  | _, .bvNot _ => .bnot
  | _, .bvNeg _ => .neg

/-- `arithType`. -/
def BinaryTag.arithType : {s : MsatType} → BinaryTag s → ArithType
  | _, .and => .land
  | _, .or => .lor
  | _, .bvMul _ => .mul
  | _, .bvAdd _ => .add
  | _, .bvAnd _ => .band
  | _, .bvOr _ => .bor
  | _, .bvXor _ => .xor
  | _, .bvSub _ => .sub
  | _, .bvUdiv _ | _, .bvSdiv _ => .div
  | _, .bvUrem _ | _, .bvSrem _ => .rem
  | _, .bvLshl _ => .shl
  | _, .bvLshr _ => .lshr
  | _, .bvAshr _ => .ashr

/-- `conditionType`. -/
def CmpTag.conditionType : CmpTag → ConditionType
  | .eq => .eq
  | .bvSle => .le
  | .bvSlt => .lt
  | .bvUle => .ule
  | .bvUlt => .ult

/-- `mpz_get_si` of a number that is not negative: the part of it that a `long` holds. -/
def mpzGetSi (n : ℕ) : ℤ := (n % 2 ^ 63 : ℕ)

variable (FN : TermFactory)

/-- `undoThat` of a symbol of this class from the terms of its arguments. -/
def SymbolClass.undoThat : SymbolClass → List (Option Term) → Option Term
  | .value s name, [] => some (TermFactory.getValueTerm s.type name)
  | .true, [] => some (TermFactory.getBooleanTerm Bool.true)
  | .false, [] => some (TermFactory.getBooleanTerm Bool.false)
  | .constant w number, [] => some (TermFactory.getIntTerm (mpzGetSi number) (.integer w.1 .unknown))
  | .unaryOperation tag, [some rhv] => some (FN.getUnaryTerm tag.unaryType rhv)
  | .iffOperation, [some lhv, some rhv] =>
    some (FN.getUnaryTerm .not (FN.getBinaryTerm .xor lhv rhv))
  | .binaryOperation tag, [some lhv, some rhv] => some (FN.getBinaryTerm tag.arithType lhv rhv)
  | .cmpOperation tag, [some lhv, some rhv] => some (FN.getCmpTerm tag.conditionType lhv rhv)
  | .iteOperation, [some cnd, some tru, some fls] => some (FN.getTernaryTerm cnd tru fls)
  | .extract, [some rhv] => some (FN.getSignTerm rhv)
  | _, _ => none

mutual
/-- `AbstractSymbol::undoThat`. -/
def undoSymbol : AbstractSymbol → Option Term
  | .node symbol args => symbol.undoThat FN (undoSymbols args)

/-- The terms of the arguments. -/
def undoSymbols : List AbstractSymbol → List (Option Term)
  | [] => []
  | symbol :: symbols => undoSymbol symbol :: undoSymbols symbols
end

/-- `undoThat`.  The expression that was visited last is on top of the stack. -/
def undoThat {s : MsatType} (e : Expr s) : Option Term :=
  (makeSymbol (e.visit SymbolFactory).reverse).bind (undoSymbol FN)

end Unlogic

/-! ## Back to the solver -/

/-- `SMTImpl<Impl, SignTerm>::doit`. -/
def SMT.signTerm : Meaning → Option Meaning
  | .bv w x => if 0 < w then some (.bv 1 (x.extractLsb' (w - 1) 1)) else none
  | .bool _ => none

/-- `SMT::doit` of the terms that `doit` has, and of signs. -/
def TermClass.redo (σ : MachineValuation) :
    TermClass → Ty → String → List (Option Meaning) → Option Meaning
  | .sign, _, _, [some rhv] => SMT.signTerm rhv
  | cls, type, name, operands => cls.doit σ type name operands

namespace Term

mutual
/-- The value of the translation of a term. -/
def redo (σ : MachineValuation) : Term → Option Meaning
  | mk _ cls type name subterms => cls.redo σ type name (redos σ subterms)

/-- The translations of the subterms. -/
def redos (σ : MachineValuation) : List Term → List (Option Meaning)
  | [] => []
  | t :: ts => redo σ t :: redos σ ts
end

end Term

namespace Unlogic

variable (FN : TermFactory)

/-- The term that is recovered from an expression means what the expression does. -/
def Expr.Recovered {s : MsatType} (e : Expr s) : Prop :=
  ∃ t, undoThat FN e = some t ∧ ∀ σ, t.redo σ = some (s.meaning (e.value σ))

/-! ## Where an operator is recovered -/

/-- `BNOT` is not. -/
def UnaryTag.Faithful : {s : MsatType} → UnaryTag s → Prop
  | _, .bvNot _ => False
  | _, _ => True

/-- The operator of the term computes what the tag means on these operands. -/
def BinaryTag.Faithful : {s : MsatType} → BinaryTag s → s.Value → s.Value → Prop
  | _, .bvUdiv w, (x : BitVec w.1), (y : BitVec w.1) =>
    y = 0 ∧ (x.msb = false ∨ w.1 = 1) ∨
      y ≠ 0 ∧ (y.toNat = 1 ∨ x = y ∨ x.msb = false ∧ x.toNat + y.toNat < 2 ^ w.1)
  | _, .bvUrem w, (x : BitVec w.1), (y : BitVec w.1) =>
    y = 0 ∨ x = y ∨ x.msb = false ∧ x.toNat + y.toNat < 2 ^ w.1 ∨
      x.msb = true ∧ y.msb = false ∧ y.toNat ∣ x.toNat ∧ y.toNat ∣ 2 ^ w.1
  | _, .bvAshr w, (x : BitVec w.1), (y : BitVec w.1) => x.msb = false ∨ y = 0
  | _, _, _, _ => True

/-- What an expression has to meet for itself, given the values of its arguments. -/
def Expr.NodeFaithful (σ : MachineValuation) : {s : MsatType} → Expr s → Prop
  | _, .bvVal x => x.toNat < 2 ^ 63
  | _, .unary tag _ => tag.Faithful
  | _, .binary tag lhv rhv => tag.Faithful (lhv.value σ) (rhv.value σ)
  | _, .extract (w := w) msb lsb _ _ arg =>
    msb = lsb ∧ BitVec.getLsbD (w := w.1) (arg.value σ) msb = BitVec.msb (n := w.1) (arg.value σ)
  | _, _ => True

/-- Every occurrence of an expression meets it. -/
def Expr.Faithful (σ : MachineValuation) {s : MsatType} (e : Expr s) : Prop :=
  ∀ u ∈ e.subexpressions, u.2.NodeFaithful σ

/-! ## Putting the tree together -/

namespace Expr

/-- The symbol of an expression with those of its arguments. -/
def symbol : {s : MsatType} → Expr s → AbstractSymbol
  | _, e@(.boolVal _) | _, e@(.bvVal _) | _, e@(.constant _ _) => .node (SymbolFactory _ e) []
  | _, e@(.unary _ arg) | _, e@(.extract _ _ _ _ arg) => .node (SymbolFactory _ e) [arg.symbol]
  | _, e@(.iff lhv rhv) | _, e@(.binary _ lhv rhv) | _, e@(.cmp _ lhv rhv) =>
    .node (SymbolFactory _ e) [lhv.symbol, rhv.symbol]
  | _, e@(.ite cond tru fls) => .node (SymbolFactory _ e) [cond.symbol, tru.symbol, fls.symbol]

/-- The term of an expression. -/
def term : {s : MsatType} → Expr s → Term
  | _, .boolVal b => TermFactory.getBooleanTerm b
  | .bv w, .bvVal x => TermFactory.getIntTerm (mpzGetSi (BitVec.toNat x)) (.integer w.1 .unknown)
  | _, .constant s name => TermFactory.getValueTerm s.type name
  | _, .unary tag arg => FN.getUnaryTerm tag.unaryType arg.term
  | _, .iff lhv rhv => FN.getUnaryTerm .not (FN.getBinaryTerm .xor lhv.term rhv.term)
  | _, .binary tag lhv rhv => FN.getBinaryTerm tag.arithType lhv.term rhv.term
  | _, .cmp tag lhv rhv => FN.getCmpTerm tag.conditionType lhv.term rhv.term
  | _, .ite cond tru fls => FN.getTernaryTerm cond.term tru.term fls.term
  | _, .extract _ _ _ _ arg => FN.getSignTerm arg.term

variable {s : MsatType}

/-- The visit calls the callback in preorder. -/
theorem visit_eq_preorder (e : Expr s) : e.visit SymbolFactory = e.symbol.preorder := by
  induction e with
  | boolVal b => rfl
  | bvVal x => rfl
  | constant s name => rfl
  | unary tag arg ih | extract msb lsb hmsb hlsb arg ih =>
      simp only [visit, symbol, RoseTree.preorder, RoseTree.preorders, ih, List.append_nil]
  | iff lhv rhv ihl ihr | binary tag lhv rhv ihl ihr | cmp tag lhv rhv ihl ihr =>
      simp only [visit, symbol, RoseTree.preorder, RoseTree.preorders, ihl, ihr, List.append_nil]
  | ite cond tru fls ihc iht ihf =>
      simp only [visit, symbol, RoseTree.preorder, RoseTree.preorders, ihc, iht, ihf,
        List.append_nil]

/-- A symbol has the arguments that its class asks for. -/
theorem symbol_hasArity (e : Expr s) : e.symbol.HasArity SymbolClass.numArgs := by
  induction e with
  | boolVal b => cases b <;> exact ⟨rfl, trivial⟩
  | bvVal x => exact ⟨rfl, trivial⟩
  | constant s name => exact ⟨rfl, trivial⟩
  | unary tag arg ih | extract msb lsb hmsb hlsb arg ih => exact ⟨rfl, ih, trivial⟩
  | iff lhv rhv ihl ihr | binary tag lhv rhv ihl ihr | cmp tag lhv rhv ihl ihr =>
      exact ⟨rfl, ihl, ihr, trivial⟩
  | ite cond tru fls ihc iht ihf => exact ⟨rfl, ihc, iht, ihf, trivial⟩

theorem undoSymbol_symbol (e : Expr s) : undoSymbol FN e.symbol = some (e.term FN) := by
  induction e with
  | boolVal b => cases b <;> rfl
  | bvVal x => rfl
  | constant s name => rfl
  | unary tag arg ih | extract msb lsb hmsb hlsb arg ih =>
      rw [symbol, undoSymbol, undoSymbols, undoSymbols, ih]
      rfl
  | iff lhv rhv ihl ihr | binary tag lhv rhv ihl ihr | cmp tag lhv rhv ihl ihr =>
      rw [symbol, undoSymbol, undoSymbols, undoSymbols, undoSymbols, ihl, ihr]
      rfl
  | ite cond tru fls ihc iht ihf =>
      rw [symbol, undoSymbol, undoSymbols, undoSymbols, undoSymbols, undoSymbols, ihc, iht, ihf]
      rfl

end Expr

/-- A terminal symbol takes no arguments. -/
theorem makeSymbolLoop_eq_rebuild (symbols : List SymbolClass) (stack : List AbstractSymbol) :
    makeSymbolLoop symbols stack = RoseTree.rebuild SymbolClass.numArgs symbols stack := by
  induction symbols generalizing stack with
  | nil => rfl
  | cons symbol symbols ih =>
      rw [makeSymbolLoop, RoseTree.rebuild_cons, RoseTree.attach]
      -- a terminal symbol is one of arity 0
      split_ifs with hterminal hle hle
      · have hzero : symbol.numArgs = 0 := beq_iff_eq.1 hterminal
        rw [ih, hzero, Option.bind_some, List.take_zero, List.drop_zero]
      · exact absurd ((beq_iff_eq.1 hterminal).le.trans (Nat.zero_le _)) hle
      · rw [ih, Option.bind_some]
      · rfl

/-- **`undoThat` returns a term** for every expression. -/
theorem undoThat_eq {s : MsatType} (e : Expr s) : undoThat FN e = some (e.term FN) := by
  have hsymbol : makeSymbol (e.visit SymbolFactory).reverse = some e.symbol := by
    rw [makeSymbol, makeSymbolLoop_eq_rebuild, Expr.visit_eq_preorder,
      RoseTree.rebuild_preorder _ _ e.symbol_hasArity]
  rw [undoThat, hsymbol, Option.bind_some, Expr.undoSymbol_symbol]

/-! ## One operator -/

section Operators

variable {σ : MachineValuation} {t lhv rhv cnd tru fls : Term} {m₁ m₂ m₃ : Meaning}

theorem redo_getUnaryTerm (op : UnaryArithType) (h : t.redo σ = some m₁) :
    (FN.getUnaryTerm op t).redo σ = SMT.unaryTerm op m₁ := by
  rw [TermFactory.getUnaryTerm, Term.redo, Term.redos, Term.redos, h]
  rfl

theorem redo_getSignTerm (h : t.redo σ = some m₁) :
    (FN.getSignTerm t).redo σ = SMT.signTerm m₁ := by
  rw [TermFactory.getSignTerm, Term.redo, Term.redos, Term.redos, h]
  rfl

theorem redo_getBinaryTerm (op : ArithType) (hl : lhv.redo σ = some m₁)
    (hr : rhv.redo σ = some m₂) :
    (FN.getBinaryTerm op lhv rhv).redo σ = SMT.binaryTerm op m₁ m₂ := by
  rw [TermFactory.getBinaryTerm, Term.redo, Term.redos, Term.redos, Term.redos, hl, hr]
  rfl

theorem redo_getCmpTerm (op : ConditionType) (hl : lhv.redo σ = some m₁)
    (hr : rhv.redo σ = some m₂) :
    (FN.getCmpTerm op lhv rhv).redo σ = SMT.cmpTerm op m₁ m₂ := by
  rw [TermFactory.getCmpTerm, Term.redo, Term.redos, Term.redos, Term.redos, hl, hr]
  rfl

theorem redo_getTernaryTerm (hc : cnd.redo σ = some m₁) (ht : tru.redo σ = some m₂)
    (hf : fls.redo σ = some m₃) :
    (FN.getTernaryTerm cnd tru fls).redo σ = m₁.select m₂ m₃ := by
  rw [TermFactory.getTernaryTerm, Term.redo, Term.redos, Term.redos, Term.redos, Term.redos, hc,
    ht, hf]
  rfl

theorem getVarByTypeAndName_type (s : MsatType) (name : String) :
    s.type.getVarByTypeAndName σ name = some (s.meaning (s.assigned σ name)) := by
  cases s with
  | bool => rfl
  | bv w => exact if_pos w.2.1

theorem unaryTerm_iff {s : MsatType} (tag : UnaryTag s) (x : s.Value) :
    SMT.unaryTerm tag.unaryType (s.meaning x) = some (s.meaning (tag.value x)) ↔
      tag.Faithful := by
  cases tag with
  | not => exact iff_of_true rfl trivial
  | bvNot w => exact iff_of_false (Option.some_ne_none _).symm id
  | bvNeg w => exact iff_of_true rfl trivial

/-- One is all ones only in one bit. -/
theorem one_eq_allOnes_iff {w : ℕ} (hw : 0 < w) : 1#w = BitVec.allOnes w ↔ w = 1 := by
  constructor
  · intro hones
    by_contra hne
    have hpow : 2 ^ 2 ≤ 2 ^ w := Nat.pow_le_pow_right Nat.two_pos (by omega)
    have hvalue := congrArg BitVec.toNat hones
    rw [BitVec.toNat_ofNat, BitVec.toNat_allOnes, Nat.mod_eq_of_lt (by omega)] at hvalue
    omega
  · intro hw
    subst hw
    rfl

/-- A division by zero keeps the sign of the number when it is signed. -/
theorem smtSDiv_eq_smtUDiv_iff {w : ℕ} (hw : 0 < w) (x y : BitVec w) :
    x.smtSDiv y = x.smtUDiv y ↔
      y = 0 ∧ (x.msb = false ∨ w = 1) ∨
        y ≠ 0 ∧ (y.toNat = 1 ∨ x = y ∨ x.msb = false ∧ x.toNat + y.toNat < 2 ^ w) := by
  by_cases hy : y = 0
  · subst hy
    have hzero : x.smtSDiv 0#w = x.smtUDiv 0#w ↔ x.msb = false ∨ w = 1 := by
      rw [BitVec.smtSDiv_zero, BitVec.smtUDiv_zero, BitVec.slt_zero_eq_msb]
      cases x.msb with
      | false => exact iff_of_true rfl (Or.inl rfl)
      | true => simpa using one_eq_allOnes_iff hw
    exact hzero.trans (by simp)
  · have hsdiv : x.smtSDiv y = x.sdiv y := SMT.smtSDiv_of_ne_zero hy
    have hudiv : x.smtUDiv y = x / y := by
      rw [BitVec.smtUDiv_eq]
      exact if_neg hy
    rw [hsdiv, hudiv, Lib.sdiv_eq_udiv_iff hy]
    exact ⟨fun h => Or.inr ⟨hy, h⟩, fun h => h.elim (fun h => absurd h.1 hy) And.right⟩

/-- A remainder by zero is the number. -/
theorem srem_eq_umod_iff {w : ℕ} (x y : BitVec w) :
    x.srem y = x % y ↔
      y = 0 ∨ x = y ∨ x.msb = false ∧ x.toNat + y.toNat < 2 ^ w ∨
        x.msb = true ∧ y.msb = false ∧ y.toNat ∣ x.toNat ∧ y.toNat ∣ 2 ^ w := by
  by_cases hy : y = 0
  · subst hy
    exact iff_of_true (BitVec.srem_zero.trans BitVec.umod_zero.symm) (Or.inl rfl)
  · exact (Lib.srem_eq_umod_iff hy).trans (or_iff_right hy).symm

theorem binaryTerm_iff {s : MsatType} (tag : BinaryTag s) (x y : s.Value) :
    SMT.binaryTerm tag.arithType (s.meaning x) (s.meaning y) =
      some (s.meaning (tag.value x y)) ↔ tag.Faithful x y := by
  cases tag with
  | and | or => exact iff_of_true rfl trivial
  | bvMul w | bvAdd w | bvAnd w | bvOr w | bvXor w | bvSub w | bvSdiv w | bvSrem w | bvLshl w
  | bvLshr w => exact iff_of_true ((SMT.binaryTerm_eq_some_iff rfl).2 rfl) trivial
  | bvUdiv w => exact (SMT.binaryTerm_eq_some_iff rfl).trans (smtSDiv_eq_smtUDiv_iff w.2.1 x y)
  | bvUrem w => exact (SMT.binaryTerm_eq_some_iff rfl).trans (srem_eq_umod_iff x y)
  | bvAshr w => exact (SMT.binaryTerm_eq_some_iff rfl).trans SMT.ushiftRight_eq_sshiftRight_iff

theorem cmpTerm_eq {w : Width} (tag : CmpTag) (x y : BitVec w.1) :
    SMT.cmpTerm tag.conditionType (.bv w.1 x) (.bv w.1 y) = some (.bool (tag.value x y)) := by
  cases tag <;> exact SMT.cmpTerm_bv rfl

/-- Equivalence is the negation of `XOR`. -/
theorem not_xor_eq (a b : Bool) : (!(a ^^ b)) = (a == b) := by
  cases a <;> cases b <;> rfl

theorem select_eq (s : MsatType) (cond : Bool) (x y : s.Value) :
    (Meaning.bool cond).select (s.meaning x) (s.meaning y) =
      some (s.meaning (if cond then x else y)) := by
  have hwidth : (s.meaning x).width = (s.meaning y).width := by
    cases s <;> rfl
  rw [Meaning.select, if_pos hwidth]
  cases cond <;> rfl

/-- A constant of 64 bits loses its top bit. -/
theorem getIntConst_iff {w : Width} (x : BitVec w.1) :
    (Ty.integer w.1 .unknown).getIntConst (mpzGetSi x.toNat) = some (.bv w.1 x) ↔
      x.toNat < 2 ^ 63 := by
  have hconst : (Ty.integer w.1 .unknown).getIntConst (mpzGetSi x.toNat) =
      some (.bv w.1 (BitVec.ofInt w.1 (mpzGetSi x.toNat))) := getIntConst_eq (if_pos w.2.1)
  -- nothing is cut off to the size of the constant: only the top bit of 64 can be lost
  have hlt : x.toNat % 2 ^ 63 < 2 ^ w.1 := (Nat.mod_le _ _).trans_lt x.isLt
  rw [hconst, Option.some_inj, Meaning.bv.injEq, heq_eq_eq, eq_self, true_and, mpzGetSi,
    BitVec.ofInt_natCast, ← BitVec.toNat_inj, BitVec.toNat_ofNat, Nat.mod_eq_of_lt hlt]
  exact Nat.mod_eq_iff_lt (by decide)

/-- A sign is a range of bits exactly when the range is one bit that has the same value. -/
theorem signTerm_iff {w msb lsb : ℕ} (hmsb : msb < w) (hlsb : lsb ≤ msb) (x : BitVec w) :
    SMT.signTerm (.bv w x) = some (.bv (msb - lsb + 1) (x.extractLsb' lsb (msb - lsb + 1))) ↔
      msb = lsb ∧ x.getLsbD msb = x.msb := by
  have hbit : ∀ k, x.extractLsb' k 1 = BitVec.ofBool (x.getLsbD k) := fun k => by
    apply BitVec.eq_of_getLsbD_eq
    intro i hi
    obtain rfl : i = 0 := Nat.lt_one_iff.1 hi
    simp
  rw [SMT.signTerm, if_pos (Nat.zero_lt_of_lt hmsb), Option.some_inj]
  -- a sign is one bit wide
  by_cases hrange : msb = lsb
  · subst hrange
    rw [Nat.sub_self, Nat.zero_add, Meaning.bv.injEq, heq_eq_eq, hbit, hbit,
      BitVec.ofBool_eq_iff_eq, ← BitVec.msb_eq_getLsbD_last]
    exact ⟨fun h => ⟨rfl, h.2.symm⟩, fun h => ⟨rfl, h.2.symm⟩⟩
  · refine iff_of_false (fun h => hrange ?_) fun h => hrange h.1
    have hsize : 1 = msb - lsb + 1 := (Meaning.bv.inj h).1
    omega

end Operators

/-! ## Whole expressions -/

namespace Expr

variable {s : MsatType} {σ : MachineValuation}

/-- The term of an expression has its value. -/
def Redone (σ : MachineValuation) (e : Expr s) : Prop :=
  (e.term FN).redo σ = some (s.meaning (e.value σ))

theorem mem_subexpressions (e : Expr s) : ⟨s, e⟩ ∈ e.subexpressions := by
  cases e <;> exact List.mem_cons_self

/-- **An expression and its subexpressions have the values of their terms** exactly when each of
them meets its own condition. -/
theorem redone_iff (e : Expr s) :
    (∀ u ∈ e.subexpressions, u.2.Redone FN σ) ↔ e.Faithful σ := by
  -- the arguments are translated to their values by the time that the node is compared
  have hnode : ∀ {own own' args args' : Prop}, (args ↔ args') → (args → (own ↔ own')) →
      (own ∧ args ↔ own' ∧ args') := fun hargs hown =>
    (and_congr_left hown).trans (and_congr_right' hargs)
  induction e with
  | boolVal b =>
      refine iff_of_true ?_ ?_
      · exact List.forall_mem_singleton.2 rfl
      · exact List.forall_mem_singleton.2 trivial
  | bvVal x =>
      refine List.forall_mem_singleton.trans (Iff.trans ?_ List.forall_mem_singleton.symm)
      exact getIntConst_iff x
  | constant s name =>
      refine iff_of_true ?_ ?_
      · exact List.forall_mem_singleton.2 (getVarByTypeAndName_type s name)
      · exact List.forall_mem_singleton.2 trivial
  | unary tag arg ih =>
      rw [Faithful, subexpressions, visit, List.forall_mem_cons, List.forall_mem_cons]
      refine hnode ih fun hargs => ?_
      rw [Redone, term, redo_getUnaryTerm FN _ (hargs _ arg.mem_subexpressions)]
      exact unaryTerm_iff tag _
  | extract msb lsb hmsb hlsb arg ih =>
      rw [Faithful, subexpressions, visit, List.forall_mem_cons, List.forall_mem_cons]
      refine hnode ih fun hargs => ?_
      rw [Redone, term, redo_getSignTerm FN (hargs _ arg.mem_subexpressions)]
      exact signTerm_iff hmsb hlsb _
  | iff lhv rhv ihl ihr =>
      rw [Faithful, subexpressions, visit, List.forall_mem_cons, List.forall_mem_cons,
        List.forall_mem_append, List.forall_mem_append]
      refine hnode (and_congr ihl ihr) fun ⟨hl, hr⟩ => iff_of_true ?_ trivial
      have hxor := redo_getBinaryTerm FN .xor (hl _ lhv.mem_subexpressions)
        (hr _ rhv.mem_subexpressions)
      rw [Redone, term, redo_getUnaryTerm FN .not hxor]
      exact congrArg (fun b => some (Meaning.bool b)) (not_xor_eq _ _)
  | binary tag lhv rhv ihl ihr =>
      rw [Faithful, subexpressions, visit, List.forall_mem_cons, List.forall_mem_cons,
        List.forall_mem_append, List.forall_mem_append]
      refine hnode (and_congr ihl ihr) fun ⟨hl, hr⟩ => ?_
      rw [Redone, term, redo_getBinaryTerm FN _ (hl _ lhv.mem_subexpressions)
        (hr _ rhv.mem_subexpressions)]
      exact binaryTerm_iff tag _ _
  | cmp tag lhv rhv ihl ihr =>
      rw [Faithful, subexpressions, visit, List.forall_mem_cons, List.forall_mem_cons,
        List.forall_mem_append, List.forall_mem_append]
      refine hnode (and_congr ihl ihr) fun ⟨hl, hr⟩ => iff_of_true ?_ trivial
      rw [Redone, term, redo_getCmpTerm FN _ (hl _ lhv.mem_subexpressions)
        (hr _ rhv.mem_subexpressions)]
      exact cmpTerm_eq tag _ _
  | ite cond tru fls ihc iht ihf =>
      rw [Faithful, subexpressions, visit, List.forall_mem_cons, List.forall_mem_cons,
        List.forall_mem_append, List.forall_mem_append, List.forall_mem_append,
        List.forall_mem_append]
      refine hnode (and_congr ihc (and_congr iht ihf)) fun ⟨hc, ht, hf⟩ => iff_of_true ?_ trivial
      rw [Redone, term, redo_getTernaryTerm FN (hc _ cond.mem_subexpressions)
        (ht _ tru.mem_subexpressions) (hf _ fls.mem_subexpressions)]
      exact select_eq _ _ _ _

theorem recovered_iff_redone (e : Expr s) : e.Recovered FN ↔ ∀ σ, e.Redone FN σ := by
  rw [Recovered, undoThat_eq]
  refine ⟨fun ⟨t, ht, hredo⟩ => ?_, fun hredo => ⟨_, rfl, hredo⟩⟩
  obtain rfl := Option.some.inj ht
  exact hredo

/-- **What is recovered from MathSAT.**  An expression means the same as the term recovered from it
when under every assignment each operator that occurs in it is recovered for its operands; and no
condition on the operators is weaker, if the subexpressions are to be recovered as well. -/
theorem recovered_of_faithful_iff (e : Expr s) :
    ((∀ σ, e.Faithful σ) → e.Recovered FN) ∧
      ((∀ u ∈ e.subexpressions, u.2.Recovered FN) ↔ ∀ σ, e.Faithful σ) := by
  have hall : (∀ u ∈ e.subexpressions, u.2.Recovered FN) ↔ ∀ σ, e.Faithful σ := by
    constructor
    · intro hrecovered σ
      exact (redone_iff FN e).1 fun u hu => (recovered_iff_redone FN u.2).1 (hrecovered u hu) σ
    · intro hfaithful u hu
      exact (recovered_iff_redone FN u.2).2 fun σ => (redone_iff FN e).2 (hfaithful σ) u hu
  exact ⟨fun hfaithful => hall.2 hfaithful _ e.mem_subexpressions, hall⟩

end Expr

/-- `x` divided by 3 as unsigned numbers of 8 bits. -/
def unsignedThird : Expr (.bv ⟨8, by decide⟩) :=
  .binary (.bvUdiv _) (.constant _ "x") (.bvVal 3#8)

/-- **An unsigned quotient is recovered as a signed one**: a third of 200 is not 66 any more. -/
theorem not_recovered_unsignedThird :
    ¬ ∀ (FN : TermFactory) (s : MsatType) (e : Expr s), e.Recovered FN := by
  intro hclaim
  have hthird := (Expr.recovered_iff_redone _ _).1
    (hclaim ⟨fun _ type _ => type, fun _ _ _ => ""⟩ _ unsignedThird) (.constant 200)
  rw [Expr.Redone] at hthird
  exact absurd hthird (by decide)

end Unlogic

end Borealis
