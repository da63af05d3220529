import Borealis.Anno.Leaves

/-!
# The ranks of the grammar

The rules for the levels of operators as one family: `readRank r n` reads expressions with
operators up to rank `n`, and `loop r n` is the part of it that runs after the first operand.

## Strategy

What a rule does on a text depends on what follows the text, because every loop tries one more
operator.  `Follow r n rest` says that no loop below rank `n` moves on `rest`.  Two facts about the
table of operators decide it, and both are checked over the whole table: an operator that is the
start of a looser one (`&` of `&&`, `|` of `||`, `==` of `==>`) is tried there and fails at its
operand, before any action ran; and no operator goes on with a character that starts an operand.
-/

namespace Borealis.Anno

open Peg

/-! ## The family of rules -/

/-- The operators of a rank, in the order in which its rule tries them. -/
def operators : Nat → List BinaryOperator
  | 0 => [.multiply, .divide, .modulus]
  | 1 => [.add, .subtract]
  | 2 => [.leftShift, .rightShift]
  | 3 => [.greaterOrEqual, .greater, .lessOrEqual, .less]
  | 4 => [.equal, .notEqual]
  | 5 => [.bitAnd]
  | 6 => [.bitXor]
  | 7 => [.bitOr]
  | 8 => [.logicalAnd]
  | 9 => [.logicalOr]
  | 10 => [.implication]
  | _ => []

/-- The operation in the action of an operator's rule: the shift to the right has that of the shift
to the left. -/
def BinaryOperator.action (op : BinaryOperator) : BinOpcode :=
  if op = .rightShift then .lsh else op.code

/-- The operators of a rank, as `readBinary` takes them. -/
def rules (n : Nat) : List (String × BinOpcode) :=
  (operators n).map fun op => (op.symbol, op.action)

section

variable (r : ExprParser)

def readRank : Nat → ExprParser
  | 0 => readPostfixExpr r
  | 1 => readUnary r
  | n + 2 => readBinary (readRank (n + 1)) (rules n)

/-- One operator of a rank and its right operand. -/
def readOperator (n : Nat) (op : BinaryOperator) : ExprParser :=
  readBop op.symbol (readRank r (n + 1)) op.action

/-- What a rank does after its first operand. -/
def loop : Nat → ExprParser
  | 0 => star (readSuffix r)
  | 1 => Result.matched
  | n + 2 => star (choice ((operators n).map (readOperator r n)))

theorem readRank_add_two (n : Nat) :
    readRank r (n + 2) = seq (readRank r (n + 1)) (loop r (n + 2)) := by
  simp only [readRank, readBinary, rules, List.map_map]
  rfl

end

theorem readExpr_succ (depth : Nat) : readExpr (depth + 1) = readRank (readExpr depth) 12 := rfl

theorem operators_rank (op : BinaryOperator) : op ∈ operators op.rank := by
  cases op <;> decide

theorem rank_of_mem_operators {op : BinaryOperator} {n : Nat} (hop : op ∈ operators n) :
    op.rank = n := by
  rcases n with _ | _ | _ | _ | _ | _ | _ | _ | _ | _ | _ | n <;>
    simp [operators] at hop
  all_goals
    rcases hop with rfl | rfl | rfl | rfl <;> rfl

/-! ## The table of operators -/

/-- A character that starts an operand. -/
def isOperandStart (c : Char) : Bool :=
  isIdent2 c || c == '\\' || c == '(' || c == '*' || c == '-' || c == '!' || c == '~'

/-- A tighter operator that starts the text of a looser one leaves nothing an operand starts
with. -/
theorem text_of_tighter : ∀ n < 11, ∀ op ∈ operators n, ∀ m < n, ∀ op' ∈ operators m,
    op'.text <+: op.text →
      (op.text.drop op'.text.length).head?.any fun c => c == '&' || c == '|' || c == '>' := by
  decide +kernel

/-- An operator of the same rank that is tried earlier does not start the text of a later one. -/
theorem text_of_earlier : ∀ n < 11, ∀ op ∈ operators n,
    ∀ op' ∈ (operators n).takeWhile (fun op' => decide (op' ≠ op)), ¬ op'.text <+: op.text := by
  decide +kernel

/-- No operator goes on with a character that starts an operand, and none with a space. -/
theorem text_goes_on : ∀ n < 11, ∀ op' ∈ operators n,
    op'.text.tail.all fun c => !isOperandStart c && !isSpace c := by
  decide +kernel

/-- How the text of an operator starts. -/
theorem text_starts : ∀ n < 11, ∀ op ∈ operators n,
    op.text.head?.any fun c => !isIdent2 c && !isSpace c && c != '.' && c != '[' && c != '(' := by
  decide +kernel

theorem rank_lt (op : BinaryOperator) : op.rank < 11 := by
  cases op <;> decide

/-! ## Every rule reads something -/

section

theorem integer_progresses : Progresses integer := by
  have hchar := char_progresses (σ := ExprStack)
  refine Progresses.sor (Progresses.sor ?_ ?_) ?_
  · exact ((hchar _).seq (hchar _).nonGrowing).ifmust (hchar _).plus.nonGrowing
  · exact (hchar _).ifmust (hchar _).nonGrowing.star
  · exact (hchar _).seq (hchar _).nonGrowing.star

theorem exponent_progresses : Progresses exponent := by
  have hchar := char_progresses (σ := ExprStack)
  exact ((hchar _).ifmust (hchar _).nonGrowing).ifmust (hchar _).plus.nonGrowing

theorem floating_progresses : Progresses floating := by
  have hdigit := char_progresses (σ := ExprStack) isDigit
  have hdot : Progresses (ch '.') := char_progresses _
  have hexponent := exponent_progresses.nonGrowing.opt
  refine Progresses.sor (Progresses.sor ?_ ?_) ?_
  · exact hdigit.plus.seq exponent_progresses.nonGrowing
  · exact ((hdigit.nonGrowing.star.seq_progresses hdot).seq hdigit.plus.nonGrowing).seq hexponent
  · exact ((hdigit.plus.seq hdot.nonGrowing).seq hdigit.nonGrowing.star).seq hexponent

theorem boolean_progresses : Progresses boolean :=
  (string_progresses (by decide)).sor (string_progresses (by decide))

theorem identifier_progresses : Progresses identifier :=
  (char_progresses isIdent1).seq (char_progresses isIdent2).nonGrowing.star

theorem pushPrimitive_progresses : Progresses pushPrimitive := by
  have hsymbol (c : Char) : Progresses (seq (ch c) identifier) :=
    (char_progresses _).seq identifier_progresses.nonGrowing
  refine Progresses.choice fun parser hparser => ?_
  simp only [List.mem_cons, List.not_mem_nil, or_false] at hparser
  rcases hparser with rfl | rfl | rfl | rfl | rfl | rfl
  · exact floating_progresses.ifapply.pad
  · exact integer_progresses.ifapply.pad
  · exact boolean_progresses.ifapply.pad
  · exact identifier_progresses.ifapply.pad
  · exact (hsymbol '\\').ifapply.pad
  · exact (hsymbol '@').ifapply.pad

theorem chpad_progresses (c : Char) : Progresses (chpad c) :=
  (char_progresses _).pad

theorem strpad_progresses {text : List Char} (htext : text ≠ []) : Progresses (strpad text) :=
  (string_progresses htext).pad

variable {r : ExprParser}

theorem readSuffix_progresses (hr : NonGrowing r) : Progresses (readSuffix r) := by
  have hmember : NonGrowing pushVariableRule := identifier_progresses.ifapply.pad.nonGrowing
  have hlist : Progresses (readExprList r) := ((chpad_progresses ',').ifmust hr).ifapply
  have hargs : NonGrowing (readExprList2 r) := hr.ifapply.ifapply.seq hlist.nonGrowing.star
  refine Progresses.sor (Progresses.sor (Progresses.sor ?_ ?_) ?_) ?_
  · exact (((chpad_progresses '[').ifmust hr).ifmust (chpad_progresses ']').nonGrowing).ifapply
  · exact (((chpad_progresses '(').ifmust hargs).ifmust (chpad_progresses ')').nonGrowing).ifapply
  · exact ((chpad_progresses '.').seq hmember).ifapply
  · exact ((strpad_progresses (by decide)).seq hmember).ifapply

theorem readPostfixExpr_progresses (hr : NonGrowing r) : Progresses (readPostfixExpr r) := by
  have hparen : Progresses (seq readOpen (seq r readClose)) :=
    (chpad_progresses '(').seq (hr.seq (chpad_progresses ')').nonGrowing)
  exact (pushPrimitive_progresses.sor hparen).seq (readSuffix_progresses hr).nonGrowing.star

theorem readUnary_progresses (hr : NonGrowing r) : Progresses (readUnary r) := by
  have hpostfix := readPostfixExpr_progresses hr
  have huop (op : String) (a : UnOpcode) (hop : op.toList ≠ []) : Progresses (readUop r op a) :=
    ((strpad_progresses hop).seq hpostfix.nonGrowing).ifapply
  refine Progresses.choice fun parser hparser => ?_
  simp only [List.mem_cons, List.not_mem_nil, or_false] at hparser
  rcases hparser with rfl | rfl | rfl | rfl | rfl
  · exact huop _ _ (by decide)
  · exact huop _ _ (by decide)
  · exact huop _ _ (by decide)
  · exact huop _ _ (by decide)
  · exact hpostfix

theorem symbol_ne_nil (op : BinaryOperator) : op.text ≠ [] := by
  cases op <;> decide

/-- A round of a rank reads its operator. -/
theorem round_progresses {n : Nat} (hoperand : NonGrowing (readRank r (n + 1))) :
    Progresses (choice ((operators n).map (readOperator r n))) := by
  refine Progresses.choice fun parser hparser => ?_
  obtain ⟨op, -, rfl⟩ := List.mem_map.mp hparser
  exact ((strpad_progresses (symbol_ne_nil op)).seq hoperand).ifapply

theorem readRank_progresses (hr : NonGrowing r) (n : Nat) : Progresses (readRank r n) := by
  induction n with
  | zero => exact readPostfixExpr_progresses hr
  | succ n ih =>
      cases n with
      | zero => exact readUnary_progresses hr
      | succ n =>
          rw [readRank_add_two]
          exact ih.seq (round_progresses ih.nonGrowing).nonGrowing.star

theorem readExpr_nonGrowing (depth : Nat) : NonGrowing (readExpr depth) := by
  induction depth with
  | zero =>
      intro input stack rest stack' hmatch
      simp [readExpr] at hmatch
  | succ depth ih => exact (readRank_progresses ih 12).nonGrowing

/-! ## Where a rule fails -/

theorem strpad_failed {text input : List Char} (lead : Spaces)
    (hinput : ∀ c ∈ input.head?, isSpace c = false) (htext : ¬ text <+: input)
    (stack : ExprStack) : strpad text (lead.1 ++ input) stack = .failed stack :=
  pad_failed lead.2 hinput (string_failed htext stack)

theorem strpad_matched (text : List Char) (htext : text ≠ []) (lead spaces : Spaces)
    (hspace : ∀ c ∈ text.head?, isSpace c = false) {rest : List Char}
    (hrest : ∀ c ∈ rest.head?, isSpace c = false) (stack : ExprStack) :
    strpad text (lead.1 ++ (text ++ (spaces.1 ++ rest))) stack = .matched rest stack := by
  refine pad_matched lead.2 ?_ (string_append text _ stack) spaces.2 hrest
  cases text with
  | nil => exact absurd rfl htext
  | cons c text => exact hspace

theorem chpad_failed {c : Char} {input : List Char} (lead : Spaces)
    (hinput : ∀ c ∈ input.head?, isSpace c = false) (hc : input.head? ≠ some c)
    (stack : ExprStack) : chpad c (lead.1 ++ input) stack = .failed stack :=
  pad_failed lead.2 hinput (ch_failed hc stack)

theorem chpad_matched {c : Char} (lead spaces : Spaces) (hspace : isSpace c = false)
    {rest : List Char} (hrest : ∀ c ∈ rest.head?, isSpace c = false) (stack : ExprStack) :
    chpad c (lead.1 ++ c :: (spaces.1 ++ rest)) stack = .matched rest stack := by
  refine pad_matched lead.2 (by simpa using hspace) ?_ spaces.2 hrest
  simp [ch, char]

/-- No leaf starts where no name, no backslash and no point is. -/
theorem pushPrimitive_failed {c : Char} {text : List Char} (lead : Spaces)
    (hspace : isSpace c = false) (hident : isIdent2 c = false)
    (hc : c ≠ '\\' ∧ c ≠ '@' ∧ c ≠ '.') (stack : ExprStack) :
    pushPrimitive (lead.1 ++ c :: text) stack = .failed stack := by
  have hhead : ∀ d ∈ (c :: text).head?, isSpace d = false := by simpa using hspace
  have hdigit : isDigit c = false := by
    by_contra hcontra
    rw [isIdent2_of_isDigit (by simpa using hcontra)] at hident
    exact Bool.noConfusion hident
  have hident1 : isIdent1 c = false := by
    by_contra hcontra
    rw [isIdent2_of_isIdent1 (by simpa using hcontra)] at hident
    exact Bool.noConfusion hident
  have hletter (d : Char) (hd : isIdent2 d = true) : c ≠ d := by
    rintro rfl
    rw [hd] at hident
    exact Bool.noConfusion hident
  obtain ⟨hfloating, hinteger⟩ := number_failed (c :: text) (by simpa using hdigit)
    (by simpa using hc.2.2) stack
  have hboolean : boolean (c :: text) stack = .failed stack :=
    (sor_failed (string_cons_failed (hletter 't' rfl).symm stack)).trans
      (string_cons_failed (hletter 'f' rfl).symm stack)
  have hname : identifier (c :: text) stack = .failed stack :=
    identifier_failed (by simpa using hident1) stack
  have hsymbol (d : Char) (hd : c ≠ d) :
      seq (ch d) identifier (c :: text) stack = .failed stack :=
    seq_failed (ch_failed (by simpa using hd) stack)
  refine choice_failed fun parser hparser => ?_
  simp only [List.mem_cons, List.not_mem_nil, or_false] at hparser
  rcases hparser with rfl | rfl | rfl | rfl | rfl | rfl
  · exact pushRule_failed lead hhead hfloating
  · exact pushRule_failed lead hhead hinteger
  · exact pushRule_failed lead hhead hboolean
  · exact pushRule_failed lead hhead hname
  · exact pushRule_failed lead hhead (hsymbol '\\' hc.1)
  · exact pushRule_failed lead hhead (hsymbol '@' hc.2.1)

/-- A character that no postfix expression starts with. -/
def NoPostfix (c : Char) : Prop :=
  isSpace c = false ∧ isIdent2 c = false ∧ (c ≠ '\\' ∧ c ≠ '@' ∧ c ≠ '.') ∧ c ≠ '('

theorem readPostfixExpr_failed {c : Char} (hc : NoPostfix c) (text : List Char)
    (stack : ExprStack) : readPostfixExpr r (c :: text) stack = .failed stack := by
  obtain ⟨hspace, hident, hleaf, hopen⟩ := hc
  let lead : Spaces := ⟨[], by simp⟩
  have hhead : ∀ d ∈ (c :: text).head?, isSpace d = false := by simpa using hspace
  refine seq_failed ((sor_failed (pushPrimitive_failed lead hspace hident hleaf stack)).trans ?_)
  exact seq_failed (chpad_failed lead hhead (by simpa using hopen) stack)

/-- The rule of a unary operator fails where another character is. -/
theorem readUop_failed {op : String} {c d : Char} (hop : op.toList = [d]) (hne : c ≠ d)
    (hspace : isSpace c = false) (lead : Spaces) (text : List Char) (a : UnOpcode)
    (stack : ExprStack) : readUop r op a (lead.1 ++ c :: text) stack = .failed stack := by
  refine ifapply_failed (seq_failed (strpad_failed lead (by simpa using hspace) ?_ stack))
  rw [hop]
  exact fun hle => hne (List.cons_prefix_cons.mp hle).1.symm

/-- No expression starts with what is left of an operator. -/
theorem readRank_failed {c : Char} (hc : NoPostfix c)
    (hunary : c ≠ '*' ∧ c ≠ '-' ∧ c ≠ '!' ∧ c ≠ '~')
    (text : List Char) (n : Nat) (stack : ExprStack) :
    readRank r n (c :: text) stack = .failed stack := by
  obtain ⟨hload, hneg, hnot, hbnot⟩ := hunary
  let lead : Spaces := ⟨[], by simp⟩
  have hpostfix := readPostfixExpr_failed (r := r) hc text stack
  induction n with
  | zero => exact hpostfix
  | succ n ih =>
      cases n with
      | zero =>
          refine choice_failed fun parser hparser => ?_
          simp only [List.mem_cons, List.not_mem_nil, or_false] at hparser
          rcases hparser with rfl | rfl | rfl | rfl | rfl
          · exact readUop_failed rfl hload hc.1 lead text _ stack
          · exact readUop_failed rfl hneg hc.1 lead text _ stack
          · exact readUop_failed rfl hnot hc.1 lead text _ stack
          · exact readUop_failed rfl hbnot hc.1 lead text _ stack
          · exact hpostfix
      | succ n =>
          rw [readRank_add_two]
          exact seq_failed ih

theorem readSuffix_failed {input : List Char} (hspace : ∀ c ∈ input.head?, isSpace c = false)
    (hindex : input.head? ≠ some '[') (hcall : input.head? ≠ some '(')
    (hpoint : input.head? ≠ some '.') (harrow : ¬ "->".toList <+: input) (stack : ExprStack) :
    readSuffix r input stack = .failed stack := by
  let lead : Spaces := ⟨[], by simp⟩
  have h₁ : readIndexExpr r input stack = .failed stack :=
    ifapply_failed (ifmust_failed (ifmust_failed (chpad_failed lead hspace hindex stack)))
  have h₂ : readCallingExpr r input stack = .failed stack :=
    ifapply_failed (ifmust_failed (ifmust_failed (chpad_failed lead hspace hcall stack)))
  have h₃ : readPropertyExpr input stack = .failed stack :=
    ifapply_failed (seq_failed (chpad_failed lead hspace hpoint stack))
  have h₄ : readIndirectPropertyExpr input stack = .failed stack :=
    ifapply_failed (seq_failed (strpad_failed lead hspace harrow stack))
  exact (sor_failed ((sor_failed ((sor_failed h₁).trans h₂)).trans h₃)).trans h₄

/-! ## What may follow an expression -/

variable (r) in
/-- No loop below a rank goes on with what follows. -/
structure Follow (n : Nat) (rest : List Char) : Prop where
  ends : Ends rest
  stops : ∀ m < n, ∀ stack, loop r m rest stack = .matched rest stack
  point : 0 < n → rest.head? ≠ some '.'

theorem Follow.mono {m n : Nat} {rest : List Char} (hfollow : Follow r n rest) (hle : m ≤ n) :
    Follow r m rest :=
  ⟨hfollow.ends, fun k hk => hfollow.stops k (by omega), fun hm => hfollow.point (by omega)⟩

theorem Follow.zero {rest : List Char} (hends : Ends rest) : Follow r 0 rest :=
  ⟨hends, fun m hm => absurd hm (Nat.not_lt_zero m), fun h => absurd h (Nat.lt_irrefl 0)⟩

theorem Follow.nil (n : Nat) : Follow r n [] := by
  refine ⟨by simp [Ends], fun m _ stack => ?_, by simp⟩
  rcases m with _ | _ | m
  · exact star_nil stack
  · rfl
  · exact star_nil stack

/-- Nothing goes on with a character that starts no operator and no suffix. -/
theorem Follow.closing {c : Char} (hc : c = ')' ∨ c = ']' ∨ c = ',') (text : List Char)
    (n : Nat) : Follow r n (c :: text) := by
  have hchar : isSpace c = false ∧ isIdent2 c = false ∧
      c ≠ '[' ∧ c ≠ '(' ∧ c ≠ '.' ∧ ¬ c = '-' := by
    rcases hc with rfl | rfl | rfl <;> decide
  obtain ⟨hspace, hident, hindex, hcall, hpoint, harrow⟩ := hchar
  let lead : Spaces := ⟨[], by simp⟩
  have hhead : ∀ d ∈ (c :: text).head?, isSpace d = false := by simpa using hspace
  refine ⟨by simpa [Ends] using ⟨hident, hspace⟩, fun m _ stack => ?_, fun _ => by simpa using hpoint⟩
  rcases m with _ | _ | m
  · refine star_of_failed (readSuffix_failed hhead (by simpa using hindex) (by simpa using hcall)
      (by simpa using hpoint) ?_ stack)
    exact fun hle => harrow (List.cons_prefix_cons.mp hle).1.symm
  · rfl
  · refine star_of_failed (choice_failed fun parser hparser => ?_)
    obtain ⟨op, hop, rfl⟩ := List.mem_map.mp hparser
    refine ifapply_failed (seq_failed (strpad_failed lead hhead ?_ stack))
    intro hle
    have hfirst : op.symbol.toList.head? = some c := by
      cases hsymbol : op.symbol.toList with
      | nil => exact absurd hsymbol (symbol_ne_nil op)
      | cons d symbol =>
          rw [hsymbol] at hle
          rw [(List.cons_prefix_cons.mp hle).1]
          rfl
    rcases hc with rfl | rfl | rfl <;> revert hfirst <;> cases op <;> decide

/-- An operand starts a text, perhaps after spaces. -/
def StartsOperand (text : List Char) : Prop :=
  ∀ c ∈ text.head?, isOperandStart c = true ∨ isSpace c = true

theorem StartsOperand.spaces {text : List Char} (htext : StartsOperand text) (spaces : Spaces) :
    StartsOperand (spaces.1 ++ text) := by
  intro c hc
  rcases hspaces : spaces.1 with _ | ⟨d, more⟩
  · rw [hspaces] at hc
    exact htext c hc
  · rw [hspaces] at hc
    obtain rfl : d = c := by simpa using hc
    exact .inr (spaces.2 d (by simp [hspaces]))

/-- An operator is not another one's start when an operand comes after it. -/
theorem text_not_start {op op' : BinaryOperator} {tail : List Char} (htail : StartsOperand tail)
    (htext : ¬ op'.text <+: op.text) : ¬ op'.text <+: op.text ++ tail := by
  intro hle
  rcases start_append_cases hle with h | ⟨c, hc, hhead⟩
  · exact htext h
  · have hmem : c ∈ op'.text.tail := by
      obtain ⟨d, text, hop⟩ := List.exists_cons_of_ne_nil (symbol_ne_nil op)
      obtain ⟨more, hmore⟩ := hc
      rw [← hmore, hop]
      simp
    have hchar := List.all_eq_true.mp
      (text_goes_on op'.rank (rank_lt op') op' (operators_rank op')) c hmem
    obtain ⟨hoperand, hspace⟩ : isOperandStart c = false ∧ isSpace c = false := by
      simpa using hchar
    rcases htail c hhead with h | h
    · rw [hoperand] at h
      exact Bool.noConfusion h
    · rw [hspace] at h
      exact Bool.noConfusion h

theorem text_head (op : BinaryOperator) : ∃ c text, op.text = c :: text ∧ isIdent2 c = false ∧
    isSpace c = false ∧ c ≠ '.' ∧ c ≠ '[' ∧ c ≠ '(' := by
  obtain ⟨c, text, hop⟩ := List.exists_cons_of_ne_nil (symbol_ne_nil op)
  have hstart := text_starts op.rank (rank_lt op) op (operators_rank op)
  rw [hop] at hstart
  simp only [List.head?_cons, Option.any_some, Bool.and_eq_true, bne_iff_ne,
    Bool.not_eq_true'] at hstart
  obtain ⟨⟨⟨⟨hident, hspace⟩, hpoint⟩, hindex⟩, hcall⟩ := hstart
  exact ⟨c, text, hop, hident, hspace, hpoint, hindex, hcall⟩

/-- The rule of a tighter operator fails on the text of a looser one. -/
theorem readOperator_failed {op op' : BinaryOperator} (hrank : op'.rank < op.rank)
    {tail : List Char} (htail : StartsOperand tail) (stack : ExprStack) :
    readOperator r op'.rank op' (op.text ++ tail) stack = .failed stack := by
  let lead : Spaces := ⟨[], by simp⟩
  obtain ⟨c, text, hop, hident, hspace, -⟩ := text_head op
  have hhead : ∀ d ∈ (op.text ++ tail).head?, isSpace d = false := by
    rw [hop]
    simpa using hspace
  by_cases htext : op'.text <+: op.text
  · -- the tighter operator is read, and its operand fails
    have hleft := text_of_tighter op.rank (rank_lt op) op (operators_rank op) op'.rank hrank op'
      (operators_rank op') htext
    obtain ⟨more, hmore⟩ := htext
    rw [← hmore, List.drop_left] at hleft
    cases more with
    | nil => simp at hleft
    | cons d more =>
        have hd : d = '&' ∨ d = '|' ∨ d = '>' := by simpa [or_assoc] using hleft
        have hdspace : isSpace d = false := by rcases hd with rfl | rfl | rfl <;> rfl
        have hspace' : ∀ e ∈ op'.text.head?, isSpace e = false := by
          obtain ⟨e, text', hop', -, he, -⟩ := text_head op'
          rw [hop']
          simpa using he
        have hmatch : strpad op'.text (op.text ++ tail) stack =
            .matched (d :: (more ++ tail)) stack := by
          rw [← hmore, List.append_assoc]
          exact strpad_matched _ (symbol_ne_nil op') lead lead hspace' (by simpa using hdspace) stack
        have hrefused : NoPostfix d ∧ d ≠ '*' ∧ d ≠ '-' ∧ d ≠ '!' ∧ d ≠ '~' := by
          unfold NoPostfix
          rcases hd with rfl | rfl | rfl <;> decide
        exact ifapply_failed ((seq_matched hmatch).trans
          (readRank_failed hrefused.1 hrefused.2 _ _ stack))
  · exact ifapply_failed (seq_failed
      (strpad_failed lead hhead (text_not_start htail htext) stack))

/-- After an expression that is the left operand of an operator comes that operator. -/
theorem Follow.operator (op : BinaryOperator) {tail : List Char} (htail : StartsOperand tail) :
    Follow r (op.rank + 2) (op.text ++ tail) := by
  obtain ⟨c, text, hop, hident, hspace, hpoint, hindex, hcall⟩ := text_head op
  have hhead : ∀ d ∈ (op.text ++ tail).head?, isSpace d = false := by
    rw [hop]
    simpa using hspace
  have hne {d : Char} (hd : c ≠ d) : (op.text ++ tail).head? ≠ some d := by
    rw [hop]
    simpa using hd
  refine ⟨?_, fun m hm stack => ?_, fun _ => hne hpoint⟩
  · rw [Ends, hop]
    simpa using ⟨hident, hspace⟩
  · rcases m with _ | _ | m
    · refine star_of_failed (readSuffix_failed hhead (hne hindex) (hne hcall) (hne hpoint) ?_ stack)
      intro harrow
      rcases start_append_cases harrow with h | ⟨d, hd, hdhead⟩
      · revert h
        cases op <;> decide
      · have hdmem : d = '>' := by
          obtain ⟨more, hmore⟩ := hd
          rw [hop] at hmore
          have hsub : d ∈ "->".toList.tail := by
            rw [← hmore]
            simp
          simpa using hsub
        obtain rfl := hdmem
        rcases htail '>' hdhead with h | h <;> exact absurd h (by decide)
    · rfl
    · refine star_of_failed (choice_failed fun parser hparser => ?_)
      obtain ⟨op', hop', rfl⟩ := List.mem_map.mp hparser
      obtain rfl := rank_of_mem_operators hop'
      exact readOperator_failed (by omega) htail stack

/-- **One round of a rank.**  The operator is read, then its right operand. -/
theorem round_matched (op : BinaryOperator) (spaces : Spaces) {tail rest : List Char}
    {left right : Production} {stack : ExprStack} (htail : StartsOperand (spaces.1 ++ tail))
    (hspace : ∀ c ∈ tail.head?, isSpace c = false)
    (hoperand : readRank r (op.rank + 1) tail (left :: stack) =
      .matched rest (right :: left :: stack)) :
    choice ((operators op.rank).map (readOperator r op.rank)) (op.text ++ (spaces.1 ++ tail))
      (left :: stack) = .matched rest (.binary op.action left right :: stack) := by
  let lead : Spaces := ⟨[], by simp⟩
  obtain ⟨c, text, hop, -, hc, -⟩ := text_head op
  refine choice_map_matched (operators_rank op) (fun op' hop' => ?_) ?_
  · have htext := text_of_earlier op.rank (rank_lt op) op (operators_rank op) op' hop'
    refine ifapply_failed (seq_failed (strpad_failed lead ?_ (text_not_start htail htext) _))
    rw [hop]
    simpa using hc
  · have hmatch : strpad op.text (op.text ++ (spaces.1 ++ tail)) (left :: stack) =
        .matched tail (left :: stack) := by
      refine strpad_matched _ (symbol_ne_nil op) lead spaces ?_ hspace _
      rw [hop]
      simpa using hc
    exact ifapply_matched_of_forall ((seq_matched hmatch).trans hoperand) fun _ => rfl

end

end Borealis.Anno
