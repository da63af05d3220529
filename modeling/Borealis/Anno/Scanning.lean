import Borealis.Anno.Stack

/-!
# Automata along the grammar

An automaton that is to read what the rules for expressions consume needs three kinds of places:
where an operand may start, perhaps behind a unary operator; where an operand is due; and where an
operand has ended.  `Places` lists what the tokens have to do between them, and the rules for
expressions follow.
-/

namespace Borealis.Anno

open Peg

/-- The tokens take an automaton between its places. -/
structure Places {α : Type} (step : α → Char → Option α) (spoiled : ExprStack → Prop)
    (start operand ended : α → List Char → Prop) : Prop where
  keeps : Invariant spoiled
  keepsName : Preserves spoiled pushVariableRule
  starts : ∀ q input, operand q input → start q input
  primitive : Scans step spoiled start ended pushPrimitive
  name : Scans step spoiled operand ended pushVariableRule
  paren : Scans step spoiled start operand readOpen
  opens : ∀ c, c = '(' ∨ c = '[' ∨ c = ',' ∨ c = '.' → Scans step spoiled ended operand (chpad c)
  closes : ∀ c, c = ')' ∨ c = ']' → Scans step spoiled ended ended (chpad c)
  arrow : Scans step spoiled ended operand readArrow
  operator : ∀ op : BinaryOperator, Scans step spoiled ended operand (strpad op.text)
  sign : ∀ code : UnOpcode, Scans step spoiled operand start (strpad [code.char])

namespace Places

variable {α : Type} {step : α → Char → Option α} {spoiled : ExprStack → Prop}
  {start operand ended : α → List Char → Prop} {r : ExprParser}

theorem exprList (hplaces : Places step spoiled start operand ended)
    (hr : Scans step spoiled operand ended r) (hkeeps : Preserves spoiled r) :
    Scans step spoiled ended ended (readExprList r) :=
  ((hplaces.opens ',' (.inr (.inr (.inl rfl)))).ifmust hr hkeeps).ifapply hplaces.keeps.collect

theorem exprList2 (hplaces : Places step spoiled start operand ended)
    (hr : Scans step spoiled operand ended r) (hkeeps : Preserves spoiled r) :
    Scans step spoiled operand ended (readExprList2 r) := by
  have hlist := hplaces.keeps.exprList hkeeps
  exact ((hr.ifapply hplaces.keeps.emptyList).ifapply hplaces.keeps.collect).seq
    ((hplaces.exprList hr hkeeps).star hlist) hlist.star

theorem suffix (hplaces : Places step spoiled start operand ended)
    (hr : Scans step spoiled operand ended r) (hkeeps : Preserves spoiled r) :
    Scans step spoiled ended ended (readSuffix r) := by
  have haction (code : BinOpcode) (hcode : code ≠ .rsh) := hplaces.keeps.binary code hcode
  have hclose (c : Char) : Preserves spoiled (chpad c) := Invariant.chpad c
  refine Scans.sor (Scans.sor (Scans.sor ?_ ?_) ?_) ?_
  · exact (((hplaces.opens '[' (.inr (.inl rfl))).ifmust hr hkeeps).ifmust
      (hplaces.closes ']' (.inr rfl)) (hclose ']')).ifapply (haction _ (by decide))
  · exact (((hplaces.opens '(' (.inl rfl)).ifmust (hplaces.exprList2 hr hkeeps)
      (hplaces.keeps.exprList2 hkeeps)).ifmust (hplaces.closes ')' (.inl rfl))
      (hclose ')')).ifapply (haction _ (by decide))
  · exact ((hplaces.opens '.' (.inr (.inr (.inr rfl)))).seq hplaces.name
      hplaces.keepsName).ifapply (haction _ (by decide))
  · exact (hplaces.arrow.seq hplaces.name hplaces.keepsName).ifapply (haction _ (by decide))

theorem postfixExpr (hplaces : Places step spoiled start operand ended)
    (hr : Scans step spoiled operand ended r) (hkeeps : Preserves spoiled r) :
    Scans step spoiled start ended (readPostfixExpr r) := by
  have hclose : Preserves spoiled readClose := Invariant.chpad ')'
  have hparen : Scans step spoiled start ended (seq readOpen (seq r readClose)) :=
    hplaces.paren.seq (hr.seq (hplaces.closes ')' (.inl rfl)) hclose) (hkeeps.seq hclose)
  have hsuffix := hplaces.keeps.suffix hkeeps
  exact (hplaces.primitive.sor hparen).seq ((hplaces.suffix hr hkeeps).star hsuffix) hsuffix.star

/-- A unary operator is read only where no unary operator has been. -/
theorem uop (hplaces : Places step spoiled start operand ended)
    (hr : Scans step spoiled operand ended r) (hkeeps : Preserves spoiled r) (code : UnOpcode)
    {op : String} (hop : op.toList = [code.char]) :
    Scans step spoiled operand ended (readUop r op code) := by
  have hsign : Scans step spoiled operand start (strpad op.toList) := by
    rw [hop]
    exact hplaces.sign code
  exact (hsign.seq (hplaces.postfixExpr hr hkeeps) (hplaces.keeps.postfixExpr hkeeps)).ifapply
    (hplaces.keeps.unary code)

theorem unary (hplaces : Places step spoiled start operand ended)
    (hr : Scans step spoiled operand ended r) (hkeeps : Preserves spoiled r) :
    Scans step spoiled operand ended (readUnary r) := by
  refine Scans.choice fun parser hparser => ?_
  simp only [List.mem_cons, List.not_mem_nil, or_false] at hparser
  rcases hparser with rfl | rfl | rfl | rfl | rfl
  · exact hplaces.uop hr hkeeps .load rfl
  · exact hplaces.uop hr hkeeps .neg rfl
  · exact hplaces.uop hr hkeeps .not rfl
  · exact hplaces.uop hr hkeeps .bnot rfl
  · exact (hplaces.postfixExpr hr hkeeps).weaken hplaces.starts fun _ _ h => h

theorem rank (hplaces : Places step spoiled start operand ended)
    (hr : Scans step spoiled operand ended r) (hkeeps : Preserves spoiled r) (n : Nat) :
    Scans step spoiled operand ended (readRank r (n + 1)) := by
  induction n with
  | zero => exact hplaces.unary hr hkeeps
  | succ n ih =>
      have hoperand := hplaces.keeps.rank hkeeps (n + 1)
      have hround : Scans step spoiled ended ended
          (choice ((operators n).map (readOperator r n))) := by
        refine Scans.choice fun parser hparser => ?_
        obtain ⟨op, -, rfl⟩ := List.mem_map.mp hparser
        exact ((hplaces.operator op).seq ih hoperand).ifapply
          (hplaces.keeps.binary _ (Invariant.action_ne op))
      have hround' := hplaces.keeps.round hoperand
      rw [readRank_add_two]
      exact ih.seq (hround.star hround') hround'.star

/-- **The automaton goes along every expression.** -/
theorem expr (hplaces : Places step spoiled start operand ended) (depth : Nat) :
    Scans step spoiled operand ended (readExpr depth) := by
  induction depth with
  | zero =>
      intro input stack rest stack' hmatch
      simp [readExpr] at hmatch
  | succ depth ih => exact hplaces.rank ih (hplaces.keeps.expr depth) 11

end Places

/-- The parts of a parse of a whole input. -/
theorem parseExpression_inv {input : List Char} {tree : Production}
    (hparse : parseExpression input = some tree) :
    ∃ middle, readExpr (input.length + 1) input [] = .matched middle [tree] ∧
      middle.dropWhile isSpace = [] := by
  unfold parseExpression at hparse
  split at hparse
  · rename_i rest tree' hmatch
    obtain rfl : tree' = tree := Option.some.inj hparse
    obtain ⟨middle, stack, hexpr, heof⟩ := seq_inv hmatch
    obtain ⟨middle', stack', hspaces, hend⟩ := seq_inv heof
    rw [star_char_eq] at hspaces
    obtain ⟨rfl, rfl⟩ : middle.dropWhile isSpace = middle' ∧ stack = stack' := by
      simpa using hspaces
    simp only [eof] at hend
    split at hend
    · rename_i hempty
      obtain ⟨-, rfl⟩ : middle.dropWhile isSpace = rest ∧ stack = [tree'] := by simpa using hend
      exact ⟨middle, hexpr, hempty⟩
    · simp at hend
  · simp at hparse

end Borealis.Anno
