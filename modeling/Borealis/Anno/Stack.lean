import Borealis.Anno.Ranks

/-!
# What the stack can hold

Facts about the stack of expressions that every rule keeps, whether it matches or fails: `Invariant`
lists what has to be shown of the actions.  One such fact says which trees can be built at all
(`Producible`): no right shift, no integer outside the range of an `int`, and no variable whose
name starts with a boolean, unless it names a member.
-/

namespace Borealis.Anno

open Peg

/-! ## Facts that the actions keep -/

/-- A fact about the stack that every rule with an action keeps. -/
structure Invariant (fact : ExprStack → Prop) : Prop where
  primitive : Preserves fact pushPrimitive
  property : Preserves fact readPropertyExpr
  indirectProperty : Preserves fact readIndirectPropertyExpr
  emptyList : ∀ text stack stack', pushEmptyList text stack = some stack' →
    fact stack → fact stack'
  collect : ∀ text stack stack', opCollectList text stack = some stack' → fact stack → fact stack'
  binary : ∀ code, code ≠ .rsh → ∀ text stack stack', opBaction code text stack = some stack' →
    fact stack → fact stack'
  unary : ∀ code text stack stack', opUaction code text stack = some stack' →
    fact stack → fact stack'

namespace Invariant

variable {fact : ExprStack → Prop} {r : ExprParser}

theorem chpad (c : Char) : Preserves fact (chpad c) :=
  (Preserves.char _).pad

theorem strpad (text : List Char) : Preserves fact (strpad text) :=
  (Preserves.string text).pad

theorem exprList (hfact : Invariant fact) (hr : Preserves fact r) :
    Preserves fact (readExprList r) :=
  ((chpad ',').ifmust hr).ifapply hfact.collect

theorem exprList2 (hfact : Invariant fact) (hr : Preserves fact r) :
    Preserves fact (readExprList2 r) :=
  ((hr.ifapply hfact.emptyList).ifapply hfact.collect).seq (hfact.exprList hr).star

theorem suffix (hfact : Invariant fact) (hr : Preserves fact r) :
    Preserves fact (readSuffix r) := by
  refine Preserves.sor (Preserves.sor (Preserves.sor ?_ ?_) hfact.property) hfact.indirectProperty
  · exact (((chpad '[').ifmust hr).ifmust (chpad ']')).ifapply (hfact.binary _ (by decide))
  · exact (((chpad '(').ifmust (hfact.exprList2 hr)).ifmust (chpad ')')).ifapply
      (hfact.binary _ (by decide))

theorem postfixExpr (hfact : Invariant fact) (hr : Preserves fact r) :
    Preserves fact (readPostfixExpr r) := by
  have hparen : Preserves fact (seq readOpen (seq r readClose)) :=
    (chpad '(').seq (hr.seq (chpad ')'))
  exact (hfact.primitive.sor hparen).seq (hfact.suffix hr).star

theorem uop (hfact : Invariant fact) (hr : Preserves fact r) (op : String) (a : UnOpcode) :
    Preserves fact (readUop r op a) :=
  ((strpad _).seq (hfact.postfixExpr hr)).ifapply (hfact.unary a)

theorem unaryExpr (hfact : Invariant fact) (hr : Preserves fact r) :
    Preserves fact (readUnary r) := by
  refine Preserves.choice fun parser hparser => ?_
  simp only [List.mem_cons, List.not_mem_nil, or_false] at hparser
  rcases hparser with rfl | rfl | rfl | rfl | rfl
  · exact hfact.uop hr _ _
  · exact hfact.uop hr _ _
  · exact hfact.uop hr _ _
  · exact hfact.uop hr _ _
  · exact hfact.postfixExpr hr

/-- No rule has the action of the shift to the right. -/
theorem action_ne (op : BinaryOperator) : op.action ≠ .rsh := by
  cases op <;> decide

theorem round (hfact : Invariant fact) {n : Nat} (hoperand : Preserves fact (readRank r (n + 1))) :
    Preserves fact (choice ((operators n).map (readOperator r n))) := by
  refine Preserves.choice fun parser hparser => ?_
  obtain ⟨op, -, rfl⟩ := List.mem_map.mp hparser
  exact ((strpad _).seq hoperand).ifapply (hfact.binary _ (action_ne op))

theorem rank (hfact : Invariant fact) (hr : Preserves fact r) (n : Nat) :
    Preserves fact (readRank r n) := by
  induction n with
  | zero => exact hfact.postfixExpr hr
  | succ n ih =>
      cases n with
      | zero => exact hfact.unaryExpr hr
      | succ n =>
          rw [readRank_add_two]
          exact ih.seq (hfact.round ih).star

theorem expr (hfact : Invariant fact) (depth : Nat) : Preserves fact (readExpr depth) := by
  induction depth with
  | zero => exact fun _ _ _ => trivial
  | succ depth ih => exact hfact.rank ih 12

end Invariant

/-! ## Trees that can be built -/

/-- The name of a variable does not start with a boolean. -/
def FreeOfBoolean (vname : List Char) : Prop :=
  ¬ "true".toList <+: vname ∧ ¬ "false".toList <+: vname

/-- The trees that the actions build. -/
inductive Producible : Production → Prop
  | doubleConstant (text : List Char) : Producible (.doubleConstant text)
  | intConstant {value : Int} (hvalue : value < 2 ^ 31) : Producible (.intConstant value)
  | boolConstant (value : Bool) : Producible (.boolConstant value)
  | builtin (vname : List Char) : Producible (.builtin vname)
  | namedConstant (vname : List Char) : Producible (.namedConstant vname)
  | productionList {data : List Production} (hdata : ∀ arg ∈ data, Producible arg) :
      Producible (.productionList data)
  | named {vname : List Char} (hname : FreeOfBoolean vname) : Producible (.variable vname)
  | member {code : BinOpcode} {op0 : Production} (vname : List Char)
      (hcode : code = .property ∨ code = .indirProperty) (hop0 : Producible op0) :
      Producible (.binary code op0 (.variable vname))
  | binary {code : BinOpcode} {op0 op1 : Production} (hcode : code ≠ .rsh)
      (hop0 : Producible op0) (hop1 : Producible op1) : Producible (.binary code op0 op1)
  | unary (code : UnOpcode) {op : Production} (hop : Producible op) : Producible (.unary code op)

theorem Producible.left {code : BinOpcode} {op0 op1 : Production}
    (htree : Producible (.binary code op0 op1)) : Producible op0 := by
  cases htree with
  | member _ _ hop0 => exact hop0
  | binary _ hop0 _ => exact hop0

theorem Producible.right {code : BinOpcode} {op0 op1 : Production}
    (htree : Producible (.binary code op0 op1)) (hcode : code ≠ .property)
    (hcode' : code ≠ .indirProperty) : Producible op1 := by
  cases htree with
  | member _ hmember _ => exact (hmember.elim hcode hcode').elim
  | binary _ _ hop1 => exact hop1

theorem Producible.code_ne {code : BinOpcode} {op0 op1 : Production}
    (htree : Producible (.binary code op0 op1)) : code ≠ .rsh := by
  cases htree with
  | member _ hmember _ => rcases hmember with rfl | rfl <;> decide
  | binary hcode _ _ => exact hcode

def AllProducible (stack : ExprStack) : Prop :=
  ∀ tree ∈ stack, Producible tree

theorem AllProducible.cons {tree : Production} {stack : ExprStack} (htree : Producible tree)
    (hstack : AllProducible stack) : AllProducible (tree :: stack) := by
  intro tree' htree'
  rcases List.mem_cons.mp htree' with rfl | h
  · exact htree
  · exact hstack tree' h

theorem AllProducible.tail {tree : Production} {stack : ExprStack}
    (hstack : AllProducible (tree :: stack)) : AllProducible stack :=
  fun tree' htree' => hstack tree' (List.mem_cons_of_mem tree htree')

theorem AllProducible.head {tree : Production} {stack : ExprStack}
    (hstack : AllProducible (tree :: stack)) : Producible tree :=
  hstack tree List.mem_cons_self

theorem Producible.toList {tree : Production} (htree : Producible tree) :
    ∀ arg ∈ tree.toList, Producible arg := by
  cases htree with
  | productionList hdata => exact hdata
  | doubleConstant text => simpa [Production.toList] using Producible.doubleConstant text
  | intConstant hvalue => simpa [Production.toList] using Producible.intConstant hvalue
  | boolConstant value => simpa [Production.toList] using Producible.boolConstant value
  | builtin vname => simpa [Production.toList] using Producible.builtin vname
  | namedConstant vname => simpa [Production.toList] using Producible.namedConstant vname
  | named hname => simpa [Production.toList] using Producible.named hname
  | member vname hcode hop0 => simpa [Production.toList] using Producible.member vname hcode hop0
  | binary hcode hop0 hop1 => simpa [Production.toList] using Producible.binary hcode hop0 hop1
  | unary code hop => simpa [Production.toList] using Producible.unary code hop

theorem toInt32_lt (value : Int) : toInt32 value < 2 ^ 31 := by
  have h := BitVec.toInt_lt (x := BitVec.ofInt 32 value)
  simpa [toInt32] using h

/-- A text that is no boolean at its start is bound to a tree that can be built. -/
theorem producible_bindString {text : List Char} (htext : FreeOfBoolean text) :
    Producible (bindString text) := by
  unfold bindString
  split
  · exact .builtin _
  · exact .namedConstant _
  · exact .named htext

/-- A member may have any name. -/
theorem producible_member {code : BinOpcode} (hcode : code = .property ∨ code = .indirProperty)
    {op0 : Production} (hop0 : Producible op0) (text : List Char) :
    Producible (.binary code op0 (bindString text)) := by
  have hne : code ≠ .rsh := by rcases hcode with rfl | rfl <;> decide
  unfold bindString
  split
  · exact .binary hne hop0 (.builtin _)
  · exact .binary hne hop0 (.namedConstant _)
  · exact .member _ hcode hop0

/-! ## What the leaves push -/

/-- A text that a parser consumed starts its input. -/
theorem take_isStart (input rest : List Char) :
    input.take (input.length - rest.length) <+: input :=
  List.take_prefix _ input

/-- The rules for names come after the one for booleans: a text they read starts with none. -/
theorem freeOfBoolean_of_failed {input : List Char} {stack stack' : ExprStack}
    (hfail : pushBooleanRule input stack = .failed stack') (rest : List Char) :
    FreeOfBoolean ((input.dropWhile isSpace).take
      ((input.dropWhile isSpace).length - rest.length)) := by
  have hboolean := pad_failed_inv hfail
  have hno (text : List Char) (htext : text = "true".toList ∨ text = "false".toList) :
      ¬ text <+: input.dropWhile isSpace := by
    intro hle
    obtain ⟨more, hmore⟩ := hle
    rw [← hmore] at hboolean
    simp only [ifapply] at hboolean
    -- the rule would match, and an action never fails
    split at hboolean
    · split at hboolean <;> simp at hboolean
    · rename_i hfailed
      rcases htext with rfl | rfl
      · rw [show boolean ("true".toList ++ more) stack = .matched more stack from
          sor_matched (string_append _ _ stack)] at hfailed
        simp at hfailed
      · have hmatch : boolean ("false".toList ++ more) stack = .matched more stack :=
          (sor_failed (string_cons_failed (by decide) stack)).trans
            (string_append "false".toList more stack)
        rw [hmatch] at hfailed
        simp at hfailed
    · simp at hboolean
  exact ⟨fun hle => hno _ (.inl rfl) (hle.trans (take_isStart _ rest)),
    fun hle => hno _ (.inr rfl) (hle.trans (take_isStart _ rest))⟩

/-- The rules behind the one for booleans leave what was on the stack, and push at most one tree. -/
theorem pushString_all {rule : ExprParser} {input : List Char} {stack : ExprStack}
    (hrule : Preserves AllProducible rule)
    (htext : ∀ rest : List Char, FreeOfBoolean ((input.dropWhile isSpace).take
      ((input.dropWhile isSpace).length - rest.length)))
    (hstack : AllProducible stack) :
    (pad (ifapply rule pushString) input stack).All AllProducible := by
  have h := hrule (input.dropWhile isSpace) stack hstack
  simp only [pad, seq, star_char_eq, ifapply]
  cases hparsed : rule (input.dropWhile isSpace) stack with
  | error => trivial
  | failed stack' =>
      rw [hparsed] at h
      exact h
  | matched rest stack' =>
      rw [hparsed] at h
      exact AllProducible.cons (producible_bindString (htext rest)) h

theorem char_seq_preserves (c : Char) : Preserves AllProducible (seq (ch c) identifier) :=
  (Preserves.char _).seq ((Preserves.char _).seq (Preserves.char _).star)

/-- The rules for names, where no boolean starts. -/
theorem names_all {input : List Char} {stack : ExprStack}
    (htext : ∀ rest : List Char, FreeOfBoolean ((input.dropWhile isSpace).take
      ((input.dropWhile isSpace).length - rest.length)))
    (hstack : AllProducible stack) :
    (choice [pushVariableRule, pushBuiltinRule, pushSymbolRule] input stack).All AllProducible := by
  have hidentifier : Preserves AllProducible identifier :=
    (Preserves.char _).seq (Preserves.char _).star
  have hvariable := pushString_all hidentifier htext hstack
  simp only [choice, sor]
  split
  · rename_i hmatch
    rw [pushVariableRule] at hmatch
    rwa [hmatch] at hvariable
  · rename_i stack₁ hfail
    rw [pushVariableRule] at hfail
    rw [hfail] at hvariable
    have hbuiltin := pushString_all (char_seq_preserves '\\') htext hvariable
    split
    · rename_i hmatch
      rw [pushBuiltinRule] at hmatch
      rwa [hmatch] at hbuiltin
    · rename_i hfail'
      rw [pushBuiltinRule] at hfail'
      rw [hfail'] at hbuiltin
      exact pushString_all (char_seq_preserves '@') htext hbuiltin
    · trivial
  · trivial

theorem floating_preserves {fact : ExprStack → Prop} : Preserves fact floating := by
  have hdigit : Preserves fact (char isDigit) := Preserves.char _
  have hplus : Preserves fact (plus (char isDigit)) := hdigit.seq hdigit.star
  have hdot : Preserves fact (ch '.') := Preserves.char _
  have hexponent : Preserves fact exponent :=
    ((Preserves.char _).ifmust (Preserves.char _)).ifmust hplus
  refine Preserves.sor (Preserves.sor ?_ ?_) ?_
  · exact hplus.seq hexponent
  · exact ((hdigit.star.seq hdot).seq hplus).seq hexponent.opt
  · exact ((hplus.seq hdot).seq hdigit.star).seq hexponent.opt

theorem integer_preserves {fact : ExprStack → Prop} : Preserves fact integer := by
  have hchar (accepts : Char → Bool) : Preserves fact (char accepts) := Preserves.char accepts
  refine Preserves.sor (Preserves.sor ?_ ?_) ?_
  · exact ((hchar _).seq (hchar _)).ifmust ((hchar _).seq (hchar _).star)
  · exact (hchar _).ifmust (hchar _).star
  · exact (hchar _).seq (hchar _).star

theorem boolean_preserves {fact : ExprStack → Prop} : Preserves fact boolean :=
  (Preserves.string _).sor (Preserves.string _)

theorem primitive_preserves : Preserves AllProducible pushPrimitive := by
  have hfloating : Preserves AllProducible pushFloatingRule := by
    refine (floating_preserves.ifapply fun text stack stack' haction hstack => ?_).pad
    obtain rfl : _ = stack' := Option.some.inj haction
    exact hstack.cons (.doubleConstant text)
  have hinteger : Preserves AllProducible pushIntegerRule := by
    refine (integer_preserves.ifapply fun text stack stack' haction hstack => ?_).pad
    simp only [pushInteger] at haction
    split at haction
    · obtain rfl : _ = stack' := Option.some.inj haction
      exact hstack.cons (.intConstant (toInt32_lt _))
    · simp at haction
  have hboolean : Preserves AllProducible pushBooleanRule := by
    refine (boolean_preserves.ifapply fun text stack stack' haction hstack => ?_).pad
    simp only [pushBool] at haction
    split at haction
    · obtain rfl : _ = stack' := Option.some.inj haction
      exact hstack.cons (.boolConstant _)
    · simp at haction
  refine hfloating.sor (hinteger.sor ?_)
  intro input stack hstack
  have h := hboolean input stack hstack
  cases hresult : pushBooleanRule input stack with
  | error => simp [choice, sor, hresult, Result.All]
  | matched rest stack' =>
      rw [hresult] at h
      rw [choice_cons_matched hresult]
      exact h
  | failed stack' =>
      rw [hresult] at h
      rw [choice_cons_failed hresult]
      exact names_all (freeOfBoolean_of_failed hresult) h

theorem identifier_preserves {fact : ExprStack → Prop} : Preserves fact identifier :=
  (Preserves.char _).seq (Preserves.char _).star

/-- The rule for variables pushes one tree or nothing. -/
theorem pushVariableRule_matched_inv {input rest : List Char} {stack stack' : ExprStack}
    (hmatch : pushVariableRule input stack = .matched rest stack') :
    ∃ text, stack' = bindString text :: stack := by
  obtain ⟨middle, hrule, -⟩ := pad_inv hmatch
  obtain ⟨stack₁, hidentifier, haction⟩ := ifapply_inv hrule
  have hkeeps : Preserves (· = stack) identifier := identifier_preserves
  have hsame : stack₁ = stack := hkeeps.matched hidentifier rfl
  rw [hsame] at haction
  exact ⟨_, (Option.some.inj haction).symm⟩

theorem pushVariableRule_failed_inv {input : List Char} {stack stack' : ExprStack}
    (hfail : pushVariableRule input stack = .failed stack') : stack' = stack := by
  have hrule := pad_failed_inv hfail
  have hkeeps : Preserves (· = stack) identifier := identifier_preserves
  have h := hkeeps (input.dropWhile isSpace) stack rfl
  simp only [ifapply] at hrule
  split at hrule
  · split at hrule <;> simp [pushString] at *
  · rename_i hidentifier
    rw [hidentifier] at h
    obtain rfl : _ = stack' := by simpa using hrule
    exact h
  · simp at hrule

/-- A member rule pushes the name of the member and takes it again. -/
theorem member_preserves {separator : ExprParser} {code : BinOpcode}
    (hcode : code = .property ∨ code = .indirProperty)
    (hseparator : Preserves AllProducible separator) :
    Preserves AllProducible (ifapply (seq separator pushVariableRule) (opBaction code)) := by
  intro input stack hstack
  have h := hseparator input stack hstack
  simp only [ifapply, seq]
  cases hparsed : separator input stack with
  | error => trivial
  | failed stack₁ =>
      rw [hparsed] at h
      exact h
  | matched rest stack₁ =>
      rw [hparsed] at h
      replace h : AllProducible stack₁ := h
      simp only
      cases hname : pushVariableRule rest stack₁ with
      | error => trivial
      | failed stack₂ =>
          rw [pushVariableRule_failed_inv hname]
          exact h
      | matched rest' stack₂ =>
          obtain ⟨text, rfl⟩ := pushVariableRule_matched_inv hname
          cases stack₁ with
          | nil => trivial
          | cons object stack₁ => exact h.tail.cons (producible_member hcode h.head text)

theorem allProducible_invariant : Invariant AllProducible where
  primitive := primitive_preserves
  property := member_preserves (.inl rfl) (Invariant.chpad '.')
  indirectProperty := member_preserves (.inr rfl) (Invariant.strpad _)
  emptyList text stack stack' haction hstack := by
    obtain rfl : _ = stack' := Option.some.inj haction
    exact hstack.cons (.productionList (by simp))
  collect text stack stack' haction hstack := by
    rcases stack with _ | ⟨rhs, _ | ⟨lhs, stack⟩⟩
    · simp [opCollectList] at haction
    · simp [opCollectList] at haction
    · obtain rfl : _ = stack' := Option.some.inj haction
      refine hstack.tail.tail.cons (.productionList fun arg harg => ?_)
      rcases List.mem_append.mp harg with harg | harg
      · exact hstack.tail.head.toList arg harg
      · exact hstack.head.toList arg harg
  binary code hcode text stack stack' haction hstack := by
    rcases stack with _ | ⟨rhs, _ | ⟨lhs, stack⟩⟩
    · simp [opBaction] at haction
    · simp [opBaction] at haction
    · obtain rfl : _ = stack' := Option.some.inj haction
      exact hstack.tail.tail.cons (.binary hcode hstack.tail.head hstack.head)
  unary code text stack stack' haction hstack := by
    rcases stack with _ | ⟨arg, stack⟩
    · simp [opUaction] at haction
    · obtain rfl : _ = stack' := Option.some.inj haction
      exact hstack.tail.cons (.unary code hstack.head)

/-! ## What a tree that was built says about the expression -/

mutual

/-- **Everything the actions keep.**  Only expressions whose values are kept have trees that can be
built. -/
theorem Rendering.kept_of_producible (s : Rendering) (htree : Producible s.tree) :
    s.All Rendering.Kept := by
  match s with
  | .leaf (.integer value _) spaces =>
      cases htree with
      | intConstant hvalue => exact Int.ofNat_lt.mp (by simpa using hvalue)
  | .leaf (.identifier name _) spaces =>
      cases htree with
      | named hname => exact hname
  | .leaf (.builtin _) _ => exact trivial
  | .leaf (.boolean _) _ => exact trivial
  | .paren _ inner _ => exact ⟨trivial, inner.kept_of_producible htree⟩
  | .index array _ inner _ =>
      exact ⟨trivial, array.kept_of_producible htree.left,
        inner.kept_of_producible (htree.right (by decide) (by decide))⟩
  | .emptyCall callee _ _ => exact ⟨trivial, callee.kept_of_producible htree.left⟩
  | .call callee _ args _ =>
      refine ⟨trivial, callee.kept_of_producible htree.left, args.kept_of_producible ?_⟩
      cases htree.right (by decide) (by decide) with
      | productionList hdata => exact hdata
  | .member object op _ name _ => exact ⟨trivial, object.kept_of_producible htree.left⟩
  | .unary op _ operand =>
      cases htree with
      | unary _ hop => exact ⟨trivial, operand.kept_of_producible hop⟩
  | .binary left op _ right =>
      have hcode : op.code ≠ .property ∧ op.code ≠ .indirProperty := by
        cases op <;> exact ⟨by decide, by decide⟩
      refine ⟨?_, left.kept_of_producible htree.left,
        right.kept_of_producible (htree.right hcode.1 hcode.2)⟩
      rintro rfl
      exact htree.code_ne rfl

theorem Arguments.kept_of_producible (args : Arguments)
    (htrees : ∀ tree ∈ args.trees, Producible tree) : args.All Rendering.Kept := by
  match args with
  | .first arg => exact arg.kept_of_producible (htrees _ (by simp [Arguments.trees]))
  | .more args _ arg =>
      refine ⟨args.kept_of_producible fun tree htree => htrees tree ?_,
        arg.kept_of_producible (htrees _ ?_)⟩
      · rw [Arguments.trees]
        exact List.mem_append_left _ htree
      · simp [Arguments.trees]

end

end Borealis.Anno
