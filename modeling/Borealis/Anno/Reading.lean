import Borealis.Anno.Ranks

/-!
# Reading an expression

An expression that avoids what the rules have no place for, and holds only values that the actions
keep, is read as its tree.  The proof goes along the expression as it is written.  An expression
that stands where operators up to rank `n` may is read by `readRank r n` up to the loop of the
rank, with its tree on the stack (`Reads`); the loop is left running because the expression may
itself be the left operand of the operator that comes next.
-/

namespace Borealis.Anno

open Peg

/-- The expression avoids everything the parser gets wrong. -/
def Rendering.Supported (s : Rendering) : Prop :=
  s.All fun s => s.Spelled ∧ s.Kept

/-! ## How an expression starts -/

theorem isSpace_of_isOperandStart {c : Char} (hc : isOperandStart c = true) :
    isSpace c = false := by
  by_contra hcontra
  rw [Bool.not_eq_false] at hcontra
  rcases isSpace_of_mem hcontra with rfl | rfl | rfl | rfl | rfl | rfl <;>
    exact absurd hc (by decide)

theorem isOperandStart_of_isIdent2 {c : Char} (hc : isIdent2 c = true) :
    isOperandStart c = true := by
  simp [isOperandStart, hc]

/-- Only a unary operator starts as one. -/
def NoUnary (c : Char) : Prop :=
  c ≠ '*' ∧ c ≠ '-' ∧ c ≠ '!' ∧ c ≠ '~'

theorem noUnary_of_isIdent2 {c : Char} (hc : isIdent2 c = true) : NoUnary c := by
  refine ⟨?_, ?_, ?_, ?_⟩ <;> rintro rfl <;> exact absurd hc (by decide)

/-- An expression starts with an operand, and with a unary operator only if it is one. -/
theorem Rendering.head (s : Rendering) : ∃ c text, s.text = c :: text ∧
    isOperandStart c = true ∧ (s.Fits 0 → NoUnary c) := by
  match s with
  | .leaf token spaces =>
      obtain ⟨c, text, htext, hc⟩ := token.head spaces.1
      refine ⟨c, text, htext, ?_, fun _ => ?_⟩
      · rcases hc with hc | rfl
        · exact isOperandStart_of_isIdent2 hc
        · rfl
      · rcases hc with hc | rfl
        · exact noUnary_of_isIdent2 hc
        · exact ⟨by decide, by decide, by decide, by decide⟩
  | .paren opened inner closed =>
      exact ⟨'(', _, rfl, rfl, fun _ => ⟨by decide, by decide, by decide, by decide⟩⟩
  | .index array _ _ _ =>
      obtain ⟨c, text, htext, hc, hunary⟩ := array.head
      exact ⟨c, _, by rw [Rendering.text, htext]; rfl, hc, fun hfits => hunary hfits.1⟩
  | .emptyCall callee _ _ =>
      obtain ⟨c, text, htext, hc, hunary⟩ := callee.head
      exact ⟨c, _, by rw [Rendering.text, htext]; rfl, hc, fun hfits => hunary hfits⟩
  | .call callee _ _ _ =>
      obtain ⟨c, text, htext, hc, hunary⟩ := callee.head
      exact ⟨c, _, by rw [Rendering.text, htext]; rfl, hc, fun hfits => hunary hfits.1⟩
  | .member object _ _ _ _ =>
      obtain ⟨c, text, htext, hc, hunary⟩ := object.head
      exact ⟨c, _, by rw [Rendering.text, htext]; rfl, hc, fun hfits => hunary hfits⟩
  | .unary op spaces operand =>
      exact ⟨op.char, _, rfl, by cases op <;> rfl, fun hfits => absurd hfits.1 (by decide)⟩
  | .binary left op _ _ =>
      obtain ⟨c, text, htext, hc, -⟩ := left.head
      exact ⟨c, _, by rw [Rendering.text, htext]; rfl, hc,
        fun hfits => absurd hfits.1 (Nat.not_succ_le_zero _)⟩

/-- A text starts, and not with a space. -/
def Begins (text : List Char) : Prop :=
  ∃ c more, text = c :: more ∧ isSpace c = false

theorem Begins.noSpace {text : List Char} (hbegins : Begins text) (tail : List Char) :
    ∀ c ∈ (text ++ tail).head?, isSpace c = false := by
  obtain ⟨c, more, rfl, hc⟩ := hbegins
  simpa using hc

theorem Rendering.begins (s : Rendering) : Begins s.text := by
  obtain ⟨c, text, htext, hc, -⟩ := s.head
  exact ⟨c, text, htext, isSpace_of_isOperandStart hc⟩

theorem Rendering.startsOperand (s : Rendering) (tail : List Char) :
    StartsOperand (s.text ++ tail) := by
  obtain ⟨c, text, htext, hc, -⟩ := s.head
  intro d hd
  rw [htext] at hd
  obtain rfl : c = d := by simpa using hd
  exact .inl hc

theorem Rendering.noUnary {s : Rendering} (hfits : s.Fits 0) : ∀ c ∈ s.text.head?, NoUnary c := by
  obtain ⟨c, text, htext, -, hunary⟩ := s.head
  intro d hd
  rw [htext] at hd
  obtain rfl : c = d := by simpa using hd
  exact hunary hfits

/-! ## From rank to rank -/

/-- The rule of a rank reads a text as a tree and goes on with its loop; digits with nothing after
them must not run into a point. -/
def Reads (r : ExprParser) (n : Nat) (text : List Char) (tree : Production) (bare : Prop) : Prop :=
  ∀ (lead : Spaces) (rest : List Char) (stack : ExprStack), Follow r n rest →
    (bare → rest.head? ≠ some '.') →
    readRank r n (lead.1 ++ (text ++ rest)) stack = loop r n rest (tree :: stack)

section

variable {r : ExprParser} {text text' : List Char} {tree tree' : Production} {bare bare' : Prop}

/-- A postfix expression is read as a unary one: no rule of a unary operator takes it. -/
theorem Reads.unary (hreads : Reads r 0 text tree bare) (hbegins : Begins text)
    (hunary : ∀ c ∈ text.head?, NoUnary c) : Reads r 1 text tree bare := by
  intro lead rest stack hfollow _
  obtain ⟨c, more, rfl, hspace⟩ := hbegins
  obtain ⟨hload, hneg, hnot, hbnot⟩ := hunary c rfl
  refine (choice_cons_failed (readUop_failed rfl hload hspace lead _ .load stack)).trans ?_
  refine (choice_cons_failed (readUop_failed rfl hneg hspace lead _ .neg stack)).trans ?_
  refine (choice_cons_failed (readUop_failed rfl hnot hspace lead _ .not stack)).trans ?_
  refine (choice_cons_failed (readUop_failed rfl hbnot hspace lead _ .bnot stack)).trans ?_
  have hpoint : bare → rest.head? ≠ some '.' := fun _ => hfollow.point (by decide)
  have hpostfix := hreads lead rest stack (hfollow.mono (by decide)) hpoint
  exact hpostfix.trans (hfollow.stops 0 (by decide) (tree :: stack))

/-- The loop of a rank below does not go on, and the next one starts. -/
theorem Reads.succ {n : Nat} (hreads : Reads r (n + 1) text tree bare) :
    Reads r (n + 2) text tree bare := by
  intro lead rest stack hfollow hpoint
  have hoperand : readRank r (n + 1) (lead.1 ++ (text ++ rest)) stack =
      .matched rest (tree :: stack) :=
    (hreads lead rest stack (hfollow.mono (by omega)) hpoint).trans
      (hfollow.stops (n + 1) (by omega) _)
  rw [readRank_add_two]
  exact seq_matched hoperand

theorem Reads.mono {m n : Nat} (hreads : Reads r (m + 1) text tree bare) (hle : m + 1 ≤ n) :
    Reads r n text tree bare := by
  obtain ⟨k, rfl⟩ := Nat.exists_eq_add_of_le hle
  clear hle
  induction k with
  | zero => exact hreads
  | succ k ih =>
      have h : Reads r (m + k + 1) text tree bare := by rwa [Nat.add_right_comm] at ih
      have hsucc := h.succ
      rwa [show m + k + 2 = m + 1 + (k + 1) by omega] at hsucc

/-- What is read at rank `0` is read at every rank. -/
theorem Reads.ofPostfixExpr (hreads : Reads r 0 text tree bare) (hbegins : Begins text)
    (hunary : ∀ c ∈ text.head?, NoUnary c) (n : Nat) : Reads r n text tree bare := by
  cases n with
  | zero => exact hreads
  | succ n => exact (hreads.unary hbegins hunary).mono (Nat.succ_le_succ (Nat.zero_le n))

/-- The whole expression, where nothing goes on. -/
theorem Reads.matched {n : Nat} (hreads : Reads r (n + 1) text tree bare) (lead : Spaces)
    {rest : List Char} (hfollow : Follow r (n + 2) rest) (stack : ExprStack) :
    readRank r (n + 1) (lead.1 ++ (text ++ rest)) stack = .matched rest (tree :: stack) :=
  (hreads lead rest stack (hfollow.mono (by omega)) fun _ => hfollow.point (by omega)).trans
    (hfollow.stops (n + 1) (by omega) _)

/-! ## One constructor at a time -/

def noSpaces : Spaces :=
  ⟨[], by simp⟩

/-- A primitive is read as a tree; digits must not run into a point. -/
def ReadsPrimitive (text : List Char) (tree : Production) (number : Prop) : Prop :=
  ∀ (lead spaces : Spaces) (rest : List Char) (stack : ExprStack), Ends rest →
    (number → (spaces.1 ++ rest).head? ≠ some '.') →
    pushPrimitive (lead.1 ++ (text ++ (spaces.1 ++ rest))) stack = .matched rest (tree :: stack)

theorem reads_primitive {number : Prop} (hprimitive : ReadsPrimitive text tree number)
    (spaces : Spaces) : Reads r 0 (text ++ spaces.1) tree (number ∧ spaces.1 = []) := by
  intro lead rest stack hfollow hpoint
  have hdot : number → (spaces.1 ++ rest).head? ≠ some '.' := by
    intro hinteger
    rcases hspaces : spaces.1 with _ | ⟨c, text⟩
    · exact hpoint ⟨hinteger, hspaces⟩
    · have hc : isSpace c = true := spaces.2 c (by simp [hspaces])
      intro heq
      obtain rfl : c = '.' := by simpa using heq
      exact absurd hc (by decide)
  rw [List.append_assoc]
  exact seq_matched (sor_matched (hprimitive lead spaces rest stack hfollow.ends hdot))

theorem reads_paren (hinner : Reads r 12 text tree bare) (hbegins : Begins text)
    (opened closed : Spaces) :
    Reads (readRank r 12) 0 ('(' :: (opened.1 ++ (text ++ ')' :: closed.1))) tree False := by
  intro lead rest stack hfollow _
  have htext : '(' :: (opened.1 ++ (text ++ ')' :: closed.1)) ++ rest =
      '(' :: (opened.1 ++ (text ++ ')' :: (closed.1 ++ rest))) := by
    simp
  have hprimitive : pushPrimitive (lead.1 ++ '(' :: (opened.1 ++ (text ++ ')' ::
      (closed.1 ++ rest)))) stack = .failed stack :=
    pushPrimitive_failed lead rfl rfl ⟨by decide, by decide, by decide⟩ stack
  have hopen := chpad_matched (c := '(') lead opened rfl
    (hbegins.noSpace (')' :: (closed.1 ++ rest))) stack
  have hexpr : readRank r 12 (text ++ ')' :: (closed.1 ++ rest)) stack =
      .matched (')' :: (closed.1 ++ rest)) (tree :: stack) :=
    hinner.matched noSpaces (.closing (.inl rfl) _ _) stack
  have hclose : readClose (')' :: (closed.1 ++ rest)) (tree :: stack) =
      .matched rest (tree :: stack) :=
    chpad_matched noSpaces closed rfl hfollow.ends.noSpace _
  rw [htext]
  refine seq_matched ((sor_failed hprimitive).trans ?_)
  exact (seq_matched hopen).trans ((seq_matched hexpr).trans hclose)

/-- A suffix of a postfix expression is one round of its loop. -/
theorem reads_suffix {suffix : List Char} (hr : NonGrowing r) (hobject : Reads r 0 text tree bare)
    (hne : suffix ≠ []) (hends : Ends suffix) (hpoint : bare → suffix.head? ≠ some '.')
    (hround : ∀ rest stack, Ends rest →
      readSuffix r (suffix ++ rest) (tree :: stack) = .matched rest (tree' :: stack)) :
    Reads r 0 (text ++ suffix) tree' False := by
  intro lead rest stack hfollow _
  have hhead : (suffix ++ rest).head? = suffix.head? := by
    cases suffix with
    | nil => exact absurd rfl hne
    | cons c suffix => rfl
  have hends' : Ends (suffix ++ rest) := by
    rw [Ends, hhead]
    exact hends
  rw [List.append_assoc, hobject lead (suffix ++ rest) stack (.zero hends')
    fun hbare => by rw [hhead]; exact hpoint hbare]
  exact star_of_matched (readSuffix_progresses hr) (hround rest stack hfollow.ends)

theorem reads_index (hr : NonGrowing (readRank r 12))
    (harray : Reads (readRank r 12) 0 text tree bare) (hinner : Reads r 12 text' tree' bare')
    (hbegins : Begins text') (opened closed : Spaces) :
    Reads (readRank r 12) 0 (text ++ '[' :: (opened.1 ++ (text' ++ ']' :: closed.1)))
      (.binary .index tree tree') False := by
  refine reads_suffix hr harray (by simp) (by simp [Ends]; decide) (by simp) ?_
  intro rest stack hends
  have hopen := chpad_matched (c := '[') noSpaces opened rfl
    (hbegins.noSpace (']' :: (closed.1 ++ rest))) (tree :: stack)
  have hexpr : readRank r 12 (text' ++ ']' :: (closed.1 ++ rest)) (tree :: stack) =
      .matched (']' :: (closed.1 ++ rest)) (tree' :: tree :: stack) :=
    hinner.matched noSpaces (.closing (.inr (.inl rfl)) _ _) _
  have hclose : readSqClose (']' :: (closed.1 ++ rest)) (tree' :: tree :: stack) =
      .matched rest (tree' :: tree :: stack) :=
    chpad_matched noSpaces closed rfl hends.noSpace _
  have hinside := ifmust_matched (ifmust_matched hopen hexpr) hclose
  rw [List.cons_append, List.append_assoc, List.append_assoc]
  exact sor_matched (sor_matched (sor_matched (ifapply_matched_of_forall hinside fun _ => rfl)))

/-- The arguments of a call are read as a list. -/
def ReadsArguments (r : ExprParser) (text : List Char) (trees : List Production) : Prop :=
  ∀ (rest : List Char) (stack : ExprStack), Follow r 13 rest →
    readExprList2 (readRank r 12) (text ++ rest) stack =
      star (readExprList (readRank r 12)) rest (.productionList trees :: stack)

theorem readExprList_progresses (hr : NonGrowing r) : Progresses (readExprList r) :=
  ((chpad_progresses ',').ifmust hr).ifapply

theorem Arguments.begins (args : Arguments) : Begins args.text := by
  match args with
  | .first arg => exact arg.begins
  | .more args spaces arg =>
      obtain ⟨c, more, htext, hc⟩ := args.begins
      exact ⟨c, _, by rw [Arguments.text, htext]; rfl, hc⟩

theorem reads_call {trees : List Production} (hr : NonGrowing (readRank r 12))
    (hcallee : Reads (readRank r 12) 0 text tree bare) (hargs : ReadsArguments r text' trees)
    (hbegins : Begins text') (opened closed : Spaces) :
    Reads (readRank r 12) 0 (text ++ '(' :: (opened.1 ++ (text' ++ ')' :: closed.1)))
      (.binary .call tree (.productionList trees)) False := by
  refine reads_suffix hr hcallee (by simp) (by simp [Ends]; decide) (by simp) ?_
  intro rest stack hends
  have hindex : readIndexExpr (readRank r 12)
      ('(' :: (opened.1 ++ (text' ++ ')' :: (closed.1 ++ rest)))) (tree :: stack) =
      .failed (tree :: stack) :=
    ifapply_failed (ifmust_failed (ifmust_failed
      (chpad_failed noSpaces (by simp; decide) (by simp) _)))
  have hopen := chpad_matched (c := '(') noSpaces opened rfl
    (hbegins.noSpace (')' :: (closed.1 ++ rest))) (tree :: stack)
  have hcomma : readExprList (readRank r 12) (')' :: (closed.1 ++ rest))
      (.productionList trees :: tree :: stack) =
      .failed (.productionList trees :: tree :: stack) :=
    ifapply_failed (ifmust_failed (chpad_failed noSpaces (by simp; decide) (by simp) _))
  have hlist : readExprList2 (readRank r 12) (text' ++ ')' :: (closed.1 ++ rest))
      (tree :: stack) = .matched (')' :: (closed.1 ++ rest))
        (.productionList trees :: tree :: stack) :=
    (hargs _ _ (.closing (.inl rfl) _ _)).trans (star_of_failed hcomma)
  have hclose : readClose (')' :: (closed.1 ++ rest))
      (.productionList trees :: tree :: stack) =
      .matched rest (.productionList trees :: tree :: stack) :=
    chpad_matched noSpaces closed rfl hends.noSpace _
  have hinside := ifmust_matched (ifmust_matched hopen hlist) hclose
  rw [List.cons_append, List.append_assoc, List.append_assoc]
  exact sor_matched (sor_matched ((sor_failed hindex).trans
    (ifapply_matched_of_forall hinside fun _ => rfl)))

theorem toList_eq_of_tree {tree : Production} (htree : ∀ data, tree ≠ .productionList data) :
    tree.toList = [tree] := by
  cases tree with
  | productionList data => exact absurd rfl (htree data)
  | _ => rfl

/-- No expression is a list. -/
theorem Rendering.tree_ne_list (s : Rendering) (data : List Production) :
    s.tree ≠ .productionList data := by
  match s with
  | .leaf token _ => cases token <;> exact fun h => Production.noConfusion h
  | .paren _ inner _ => exact inner.tree_ne_list data
  | .index _ _ _ _ => exact fun h => Production.noConfusion h
  | .emptyCall _ _ _ => exact fun h => Production.noConfusion h
  | .call _ _ _ _ => exact fun h => Production.noConfusion h
  | .member _ _ _ _ _ => exact fun h => Production.noConfusion h
  | .unary _ _ _ => exact fun h => Production.noConfusion h
  | .binary _ _ _ _ => exact fun h => Production.noConfusion h

theorem readsArguments_first (harg : Reads r 12 text tree bare)
    (htree : ∀ data, tree ≠ .productionList data) : ReadsArguments r text [tree] := by
  intro rest stack hfollow
  have hexpr : readRank r 12 (text ++ rest) stack = .matched rest (tree :: stack) :=
    harg.matched noSpaces hfollow stack
  have hcollect (text : List Char) : opCollectList text (createEmptyList :: tree :: stack) =
      some (.productionList [tree] :: stack) := by
    rw [opCollectList, createList, toList_eq_of_tree htree]
    rfl
  exact seq_matched (ifapply_matched_of_forall
    (ifapply_matched_of_forall hexpr fun _ => rfl) hcollect)

theorem readsArguments_more {trees : List Production} (hr : NonGrowing (readRank r 12))
    (hargs : ReadsArguments r text trees) (harg : Reads r 12 text' tree' bare')
    (hbegins : Begins text') (htree : ∀ data, tree' ≠ .productionList data) (spaces : Spaces) :
    ReadsArguments r (text ++ ',' :: (spaces.1 ++ text')) (trees ++ [tree']) := by
  intro rest stack hfollow
  have hcomma := chpad_matched (c := ',') noSpaces spaces rfl (hbegins.noSpace rest)
    (.productionList trees :: stack)
  have hexpr : readRank r 12 (text' ++ rest) (.productionList trees :: stack) =
      .matched rest (tree' :: .productionList trees :: stack) :=
    harg.matched noSpaces hfollow _
  have hcollect (text : List Char) :
      opCollectList text (tree' :: .productionList trees :: stack) =
        some (.productionList (trees ++ [tree']) :: stack) := by
    rw [opCollectList, createList, toList_eq_of_tree htree]
    rfl
  have hround : readExprList (readRank r 12) (',' :: (spaces.1 ++ (text' ++ rest)))
      (.productionList trees :: stack) =
      .matched rest (.productionList (trees ++ [tree']) :: stack) :=
    ifapply_matched_of_forall (ifmust_matched hcomma hexpr) hcollect
  have htext : text ++ ',' :: (spaces.1 ++ text') ++ rest =
      text ++ ',' :: (spaces.1 ++ (text' ++ rest)) := by
    simp
  rw [htext, hargs _ _ (.closing (.inr (.inr rfl)) _ _)]
  exact star_of_matched (readExprList_progresses hr) hround

/-- No bracket opens here. -/
theorem readBrackets_failed {input : List Char} (hspace : ∀ c ∈ input.head?, isSpace c = false)
    (hindex : input.head? ≠ some '[') (hcall : input.head? ≠ some '(') (stack : ExprStack) :
    sor (readIndexExpr r) (readCallingExpr r) input stack = .failed stack := by
  have h₁ : readIndexExpr r input stack = .failed stack :=
    ifapply_failed (ifmust_failed (ifmust_failed (chpad_failed noSpaces hspace hindex stack)))
  have h₂ : readCallingExpr r input stack = .failed stack :=
    ifapply_failed (ifmust_failed (ifmust_failed (chpad_failed noSpaces hspace hcall stack)))
  exact (sor_failed h₁).trans h₂

theorem Name.noSpace (name : Name) (tail : List Char) :
    ∀ c ∈ (name.1 ++ tail).head?, isSpace c = false := by
  obtain ⟨c, text, htext, hc⟩ := name.head
  rw [htext]
  simpa using isSpace_of_isOperandStart (isOperandStart_of_isIdent2 (isIdent2_of_isIdent1 hc))

theorem pushVariableRule_matched (name : Name) (closed : Spaces) {rest : List Char}
    (hends : Ends rest) (stack : ExprStack) :
    pushVariableRule (name.1 ++ (closed.1 ++ rest)) stack =
      .matched rest (.variable name.1 :: stack) := by
  have haction : pushString name.1 stack = some (.variable name.1 :: stack) := by
    rw [pushString, bindString_name]
  exact pushRule_matched noSpaces closed (name.noSpace _)
    (identifier_matched name (hends.tail closed) stack) haction hends

/-- The rule of a member operator, after the rules for brackets and the rule of the other one. -/
theorem reads_member {op : MemberOperator} (hr : NonGrowing r)
    (hobject : Reads r 0 text tree bare) (hbare : op = .dot → ¬ bare) (spaces : Spaces)
    (name : Name) (closed : Spaces) :
    Reads r 0 (text ++ (op.text ++ (spaces.1 ++ (name.1 ++ closed.1))))
      (.binary op.code tree (.variable name.1)) False := by
  cases op with
  | dot =>
      refine reads_suffix hr hobject (by simp [MemberOperator.text])
        (by simp [Ends, MemberOperator.text]; decide) (fun h => absurd h (hbare rfl)) ?_
      intro rest stack hends
      have htext : MemberOperator.dot.text ++ (spaces.1 ++ (name.1 ++ closed.1)) ++ rest =
          '.' :: (spaces.1 ++ (name.1 ++ (closed.1 ++ rest))) := by
        simp [MemberOperator.text]
      have hbrackets : sor (readIndexExpr r) (readCallingExpr r)
          ('.' :: (spaces.1 ++ (name.1 ++ (closed.1 ++ rest)))) (tree :: stack) =
          .failed (tree :: stack) :=
        readBrackets_failed (by simp; decide) (by simp) (by simp) _
      have hdot := chpad_matched (c := '.') noSpaces spaces rfl (name.noSpace (closed.1 ++ rest))
        (tree :: stack)
      have hinside := (seq_matched hdot).trans
        (pushVariableRule_matched name closed hends (tree :: stack))
      rw [htext]
      exact sor_matched ((sor_failed hbrackets).trans
        (ifapply_matched_of_forall hinside fun _ => rfl))
  | arrow =>
      refine reads_suffix hr hobject (by simp [MemberOperator.text])
        (by simp [Ends, MemberOperator.text]; decide) (by simp [MemberOperator.text]) ?_
      intro rest stack hends
      have htext : MemberOperator.arrow.text ++ (spaces.1 ++ (name.1 ++ closed.1)) ++ rest =
          "->".toList ++ (spaces.1 ++ (name.1 ++ (closed.1 ++ rest))) := by
        simp [MemberOperator.text]
      have hhead : ∀ c ∈ ("->".toList ++ (spaces.1 ++ (name.1 ++ (closed.1 ++ rest)))).head?,
          isSpace c = false := by
        simp
        decide
      have hbrackets : sor (readIndexExpr r) (readCallingExpr r)
          ("->".toList ++ (spaces.1 ++ (name.1 ++ (closed.1 ++ rest)))) (tree :: stack) =
          .failed (tree :: stack) :=
        readBrackets_failed hhead (by simp) (by simp) _
      have hproperty : readPropertyExpr
          ("->".toList ++ (spaces.1 ++ (name.1 ++ (closed.1 ++ rest)))) (tree :: stack) =
          .failed (tree :: stack) :=
        ifapply_failed (seq_failed (chpad_failed noSpaces hhead (by simp) _))
      have harrow := strpad_matched "->".toList (by decide) noSpaces spaces (by simp; decide)
        (name.noSpace (closed.1 ++ rest)) (tree :: stack)
      have hinside := (seq_matched harrow).trans
        (pushVariableRule_matched name closed hends (tree :: stack))
      rw [htext]
      exact (sor_failed ((sor_failed hbrackets).trans hproperty)).trans
        (ifapply_matched_of_forall hinside fun _ => rfl)

theorem reads_unary (hoperand : Reads r 0 text tree bare) (hbegins : Begins text)
    (op : UnOpcode) (spaces : Spaces) :
    Reads r 1 (op.char :: (spaces.1 ++ text)) (.unary op tree) False := by
  intro lead rest stack hfollow _
  have hread : readPostfixExpr r (text ++ rest) stack = .matched rest (tree :: stack) :=
    (hoperand noSpaces rest stack (hfollow.mono (by decide))
      fun _ => hfollow.point (by decide)).trans (hfollow.stops 0 (by decide) _)
  have hopchar : isSpace op.char = false := by cases op <;> rfl
  have huop (symbol : String) (hsymbol : symbol.toList = [op.char]) :
      readUop r symbol op (lead.1 ++ (op.char :: (spaces.1 ++ text) ++ rest)) stack =
        .matched rest (.unary op tree :: stack) := by
    have hmatch := strpad_matched symbol.toList (by simp [hsymbol]) lead spaces
      (by simpa [hsymbol] using hopchar) (hbegins.noSpace rest) stack
    have htext : op.char :: (spaces.1 ++ text) ++ rest =
        symbol.toList ++ (spaces.1 ++ (text ++ rest)) := by
      simp [hsymbol]
    rw [htext]
    exact ifapply_matched_of_forall ((seq_matched hmatch).trans hread) fun _ => rfl
  have hother (symbol : String) (a : UnOpcode) {c : Char} (hsymbol : symbol.toList = [c])
      (hc : op.char ≠ c) :
      readUop r symbol a (lead.1 ++ (op.char :: (spaces.1 ++ text) ++ rest)) stack =
        .failed stack :=
    readUop_failed hsymbol hc hopchar lead _ a stack
  -- the four rules are tried in this order
  cases op with
  | load => exact choice_cons_matched (huop "*" rfl)
  | neg =>
      refine (choice_cons_failed (hother "*" .load rfl (by decide))).trans ?_
      exact choice_cons_matched (huop "-" rfl)
  | not =>
      refine (choice_cons_failed (hother "*" .load rfl (by decide))).trans ?_
      refine (choice_cons_failed (hother "-" .neg rfl (by decide))).trans ?_
      exact choice_cons_matched (huop "!" rfl)
  | bnot =>
      refine (choice_cons_failed (hother "*" .load rfl (by decide))).trans ?_
      refine (choice_cons_failed (hother "-" .neg rfl (by decide))).trans ?_
      refine (choice_cons_failed (hother "!" .not rfl (by decide))).trans ?_
      exact choice_cons_matched (huop "~" rfl)

/-- The left operand leaves the loop running, and the operator is its next round. -/
theorem reads_binary {op : BinaryOperator} (hr : NonGrowing r)
    (hleft : Reads r (op.rank + 2) text tree bare)
    (hright : Reads r (op.rank + 1) text' tree' bare') (hbegins : Begins text') (spaces : Spaces)
    (hstarts : ∀ rest, StartsOperand (spaces.1 ++ (text' ++ rest))) :
    Reads r (op.rank + 2) (text ++ (op.text ++ (spaces.1 ++ text')))
      (.binary op.action tree tree') False := by
  intro lead rest stack hfollow _
  have hoperand : readRank r (op.rank + 1) (text' ++ rest) (tree :: stack) =
      .matched rest (tree' :: tree :: stack) :=
    (hright noSpaces rest _ (hfollow.mono (by omega)) fun _ => hfollow.point (by omega)).trans
      (hfollow.stops (op.rank + 1) (by omega) _)
  have hround := round_matched op spaces (hstarts rest) (hbegins.noSpace rest) hoperand
  have hnext : Follow r (op.rank + 2) (op.text ++ (spaces.1 ++ (text' ++ rest))) :=
    .operator op (hstarts rest)
  have htext : text ++ (op.text ++ (spaces.1 ++ text')) ++ rest =
      text ++ (op.text ++ (spaces.1 ++ (text' ++ rest))) := by
    simp
  rw [htext, hleft lead _ stack hnext fun _ => hnext.point (by omega)]
  exact star_of_matched (round_progresses (readRank_progresses hr _).nonGrowing) hround

end

/-! ## The whole expression -/

theorem Rendering.All.self {p : Rendering → Prop} {s : Rendering} (hall : s.All p) : p s := by
  cases s with
  | leaf _ _ => exact hall
  | paren _ _ _ => exact hall.1
  | index _ _ _ _ => exact hall.1
  | emptyCall _ _ _ => exact hall.1
  | call _ _ _ _ => exact hall.1
  | member _ _ _ _ _ => exact hall.1
  | unary _ _ _ => exact hall.1
  | binary _ _ _ _ => exact hall.1

/-- Only unary expressions need a higher rank than their operand. -/
theorem Rendering.Fits.postfix_of_not_unary {s : Rendering} (hfits : s.Fits 1)
    (hunary : ¬ s.IsUnary) : s.Fits 0 := by
  cases s with
  | unary _ _ _ => exact absurd trivial hunary
  | binary left op _ right => exact absurd hfits.1 (by omega)
  | leaf _ _ => exact hfits
  | paren _ _ _ => exact hfits
  | index _ _ _ _ => exact hfits
  | emptyCall _ _ _ => exact hfits
  | call _ _ _ _ => exact hfits
  | member _ _ _ _ _ => exact hfits

theorem readRank_nonGrowing (depth : Nat) : NonGrowing (readRank (readExpr depth) 12) :=
  (readRank_progresses (readExpr_nonGrowing depth) 12).nonGrowing

theorem Rendering.startsRight (s : Rendering) (spaces : Spaces) (rest : List Char) :
    StartsOperand (spaces.1 ++ (s.text ++ rest)) :=
  (s.startsOperand rest).spaces spaces

mutual

/-- Every bracket nests one deeper, and reads a character of the text. -/
theorem Rendering.reads (s : Rendering) (n depth : Nat) (hfits : s.Fits n)
    (hgood : s.Supported) (hdepth : s.text.length ≤ depth) :
    Reads (readExpr depth) n s.text s.tree s.IsBareInteger := by
  match s with
  | .leaf token spaces =>
      have hkept : token.Kept := by
        have h := hgood.self.2
        cases token <;> exact h
      have hleaf := reads_primitive (r := readExpr depth) (fun lead spaces _ stack hends hpoint =>
        pushPrimitive_leaf hkept lead spaces hends hpoint stack) spaces
      have hbare : (token.IsInteger ∧ spaces.1 = []) =
          (Rendering.leaf token spaces).IsBareInteger := by
        cases token <;> simp [Leaf.IsInteger, Rendering.IsBareInteger]
      rw [hbare] at hleaf
      exact hleaf.ofPostfixExpr (Rendering.leaf token spaces).begins
        (Rendering.noUnary (s := .leaf token spaces) trivial) n
  | .paren opened inner closed =>
      cases depth with
      | zero => simp [Rendering.text] at hdepth
      | succ depth =>
          have hinner := inner.reads 12 depth hfits hgood.2
            (by simp [Rendering.text] at hdepth; omega)
          exact (reads_paren hinner inner.begins opened closed).ofPostfixExpr
            (Rendering.paren opened inner closed).begins
            (Rendering.noUnary (s := .paren opened inner closed) hfits) n
  | .index array opened inner closed =>
      cases depth with
      | zero => simp [Rendering.text] at hdepth
      | succ depth =>
          have harray := array.reads 0 (depth + 1) hfits.1 hgood.2.1
            (by simp [Rendering.text] at hdepth; omega)
          have hinner := inner.reads 12 depth hfits.2 hgood.2.2
            (by simp [Rendering.text] at hdepth; omega)
          exact (reads_index (readRank_nonGrowing depth) harray hinner inner.begins opened
            closed).ofPostfixExpr (Rendering.index array opened inner closed).begins
            (Rendering.noUnary (s := .index array opened inner closed) hfits) n
  | .emptyCall _ _ _ => exact hgood.1.1.elim
  | .call callee opened args closed =>
      cases depth with
      | zero => simp [Rendering.text] at hdepth
      | succ depth =>
          have hcallee := callee.reads 0 (depth + 1) hfits.1 hgood.2.1
            (by simp [Rendering.text] at hdepth; omega)
          have hargs := args.reads depth hfits.2 hgood.2.2
            (by simp [Rendering.text] at hdepth; omega)
          exact (reads_call (readRank_nonGrowing depth) hcallee hargs args.begins opened
            closed).ofPostfixExpr (Rendering.call callee opened args closed).begins
            (Rendering.noUnary (s := .call callee opened args closed) hfits) n
  | .member object op spaces name closed =>
      have hobject := object.reads 0 depth hfits hgood.2
        (by simp [Rendering.text] at hdepth; omega)
      have hbare : op = .dot → ¬ object.IsBareInteger := by
        rintro rfl
        exact hgood.1.1
      exact (reads_member (readExpr_nonGrowing depth) hobject hbare spaces name
        closed).ofPostfixExpr (Rendering.member object op spaces name closed).begins
        (Rendering.noUnary (s := .member object op spaces name closed) hfits) n
  | .unary op spaces operand =>
      have hoperand := operand.reads 0 depth (hfits.2.postfix_of_not_unary hgood.1.1) hgood.2
        (by simp [Rendering.text] at hdepth; omega)
      exact (reads_unary hoperand operand.begins op spaces).mono hfits.1
  | .binary left op spaces right =>
      have hleft := left.reads (op.rank + 2) depth hfits.2.1 hgood.2.1
        (by simp [Rendering.text] at hdepth; omega)
      have hright := right.reads (op.rank + 1) depth hfits.2.2 hgood.2.2
        (by simp [Rendering.text] at hdepth; omega)
      have haction : op.action = op.code := if_neg hgood.1.2
      have hbinary := reads_binary (readExpr_nonGrowing depth) hleft hright right.begins spaces
        (right.startsRight spaces)
      rw [haction] at hbinary
      exact hbinary.mono hfits.1

theorem Arguments.reads (args : Arguments) (depth : Nat) (hfit : args.Fit)
    (hgood : args.All fun s => s.Spelled ∧ s.Kept) (hdepth : args.text.length ≤ depth) :
    ReadsArguments (readExpr depth) args.text args.trees := by
  match args with
  | .first arg =>
      exact readsArguments_first (arg.reads 12 depth hfit hgood
        (by simpa [Arguments.text] using hdepth)) arg.tree_ne_list
  | .more args spaces arg =>
      have hargs := args.reads depth hfit.1 hgood.1
        (by simp [Arguments.text] at hdepth; omega)
      have harg := arg.reads 12 depth hfit.2 hgood.2
        (by simp [Arguments.text] at hdepth; omega)
      exact readsArguments_more (readRank_nonGrowing depth) hargs harg arg.begins arg.tree_ne_list
        spaces

end

theorem readExpr_of_supported (lead : Spaces) {s : Rendering} (hfits : s.Fits 12)
    (hgood : s.Supported) (depth : Nat) (hdepth : s.text.length ≤ depth) :
    readExpr (depth + 1) (lead.1 ++ s.text) [] = .matched [] [s.tree] := by
  have hreads := s.reads 12 depth hfits hgood hdepth
  have hread : readRank (readExpr depth) 12 (lead.1 ++ (s.text ++ [])) [] =
      .matched [] [s.tree] :=
    hreads.matched lead (.nil 13) []
  rw [List.append_nil] at hread
  rw [readExpr_succ]
  exact hread

/-- What the parser supports is read as its tree. -/
theorem parseExpression_of_supported (lead : Spaces) {s : Rendering} (hfits : s.Fits 12)
    (hgood : s.Supported) : parseExpression (lead.1 ++ s.text) = some s.tree := by
  have hexpr := readExpr_of_supported lead hfits hgood (lead.1 ++ s.text).length (by simp)
  have hspace : spaceUntilEof [] [s.tree] = .matched [] [s.tree] := rfl
  unfold parseExpression
  rw [seq_matched hexpr, hspace]

end Borealis.Anno
